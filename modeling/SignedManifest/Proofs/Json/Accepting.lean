import SignedManifest.Proofs.Json.Layouts

/-!
What a reader accepts. However a value was spelled, each part of it was read at the level where it
stands, or goes without saying; so what is written of it nests at most one level deeper than the
reader may go.
-/
namespace SignedManifest.Json
namespace Scan

variable {α β : Type} {s t : Symbols}

theorem bind_inv {x : Scan α} {f : α → Scan β} {b : β} (ran : (x >>= f) s = .ok (b, t)) :
    ∃ a r, x s = .ok (a, r) ∧ f a r = .ok (b, t) := by
  rw [bind_eq] at ran
  rcases first : x s with e | ⟨a, r⟩
  · rw [first] at ran
    cases ran
  · rw [first] at ran
    exact ⟨a, r, rfl, ran⟩

theorem map_inv {x : Scan α} {f : α → β} {b : β} (ran : (f <$> x) s = .ok (b, t)) :
    ∃ a, x s = .ok (a, t) ∧ f a = b := by
  rw [map_eq] at ran
  rcases first : x s with e | ⟨a, r⟩
  · rw [first] at ran
    cases ran
  · rw [first] at ran
    cases ran
    exact ⟨a, rfl, rfl⟩

theorem mismatch_not_ok {expected : String} {a : α} : mismatch expected s ≠ .ok (a, t) := by
  intro ran
  obtain ⟨c, r, _, ran⟩ := bind_inv ran
  split at ran
  · obtain ⟨_, _, _, failed⟩ := bind_inv ran
    cases failed
  · obtain ⟨_, _, _, failed⟩ := bind_inv ran
    cases failed
  · obtain ⟨_, _, _, failed⟩ := bind_inv ran
    cases failed
  · obtain ⟨_, _, _, ran⟩ := bind_inv ran
    obtain ⟨_, _, _, failed⟩ := bind_inv ran
    cases failed
  · cases ran
  · cases ran
  · split at ran
    · obtain ⟨_, _, _, failed⟩ := bind_inv ran
      cases failed
    · cases ran
  · cases ran

theorem enter_ok {body : Reader α} {d : Nat} {a : α} (ran : enter body d s = .ok (a, t)) :
    ∃ e, d = e + 1 ∧ body e s.tail = .ok (a, t) := by
  cases d with
  | zero => cases ran
  | succ e =>
    obtain ⟨_, _, moved, ran⟩ := bind_inv ran
    cases moved
    exact ⟨e, rfl, ran⟩

theorem items_ok {item : Scan α} {n : Nat} {first : Bool} {acc l : List α}
    (ran : items item n first acc s = .ok (l, t)) :
    ∀ a ∈ l, a ∈ acc ∨ ∃ s t, item s = .ok (a, t) := by
  induction n generalizing first acc s with
  | zero => cases ran
  | succ n ih =>
    obtain ⟨more, r, _, ran⟩ := bind_inv ran
    split at ran
    · obtain ⟨x, r', read, ran⟩ := bind_inv ran
      intro a member
      rcases ih ran a member with before | read
      · rcases List.mem_cons.mp before with rfl | before
        · exact .inr ⟨r, r', read⟩
        · exact .inl before
      · exact .inr read
    · cases ran
      exact fun a member => .inl (List.mem_reverse.mp member)

theorem allItems_ok {item : Scan α} {l : List α} (ran : allItems item s = .ok (l, t)) :
    ∀ a ∈ l, ∃ s t, item s = .ok (a, t) := by
  obtain ⟨_, _, _, ran⟩ := bind_inv ran
  obtain ⟨xs, _, read, ran⟩ := bind_inv ran
  obtain ⟨_, _, _, ran⟩ := bind_inv ran
  cases ran
  intro a member
  exact (items_ok read a member).resolve_left List.not_mem_nil

theorem members_keep {σ : Type} {step : String → σ → Scan σ} {kept : σ → Prop}
    (steps : ∀ k state s state' t, kept state → step k state s = .ok (state', t) → kept state')
    {n : Nat} {first : Bool} {state state' : σ} (start : kept state)
    (ran : members step n first state s = .ok (state', t)) : kept state' := by
  induction n generalizing first state s with
  | zero => cases ran
  | succ n ih =>
    obtain ⟨more, r, _, ran⟩ := bind_inv ran
    split at ran
    · obtain ⟨k, r, _, ran⟩ := bind_inv ran
      obtain ⟨next, r', stepped, ran⟩ := bind_inv ran
      exact ih (steps k state r next r' start stepped) ran
    · cases ran
      exact start

end Scan

open Scan

variable {d : Nat}

/-! ### Fields -/

/-- A value that a field may have in what was read: one that its reader gave, or one that goes without
saying. -/
def Field.Gives (f : Field) (d : Nat) (v : f.Value) : Prop :=
  (∃ s t, f.read d s = .ok (v, t)) ∨ f.absent = some v ∨ f.beyond = some v

namespace Values

def Gained (d : Nat) : (fs : List Field) → Values fs → Prop
  | [], _ => True
  | f :: fs, v => f.Gives d v.1 ∧ Gained d fs v.2

theorem readItems_ok {expected : String} {fs : List Field} {index : Nat} {first : Bool}
    {s t : Symbols} {v : Values fs} (ran : readItems d expected fs index first s = .ok (v, t)) :
    Gained d fs v := by
  induction fs generalizing index first s t with
  | nil => trivial
  | cons f fs ih =>
    obtain ⟨more, r, _, ran⟩ := bind_inv ran
    split at ran
    · obtain ⟨a, r', read, ran⟩ := bind_inv ran
      obtain ⟨others, _, rest, ran⟩ := bind_inv ran
      cases ran
      exact ⟨.inl ⟨r, r', read⟩, ih rest⟩
    · cases beyond : f.beyond with
      | none =>
        rw [beyond] at ran
        cases ran
      | some a =>
        rw [beyond] at ran
        obtain ⟨others, _, rest, ran⟩ := bind_inv ran
        cases ran
        exact ⟨.inr (.inr beyond), ih rest⟩

end Values

namespace Slots

def Gained (d : Nat) : (fs : List Field) → Slots fs → Prop
  | [], _ => True
  | f :: fs, slots => (∀ v, slots.1 = some v → f.Gives d v) ∧ Gained d fs slots.2

theorem gained_empty (fs : List Field) : Gained d fs (empty fs) := by
  induction fs with
  | nil => trivial
  | cons f fs ih => exact ⟨nofun, ih⟩

theorem readMember_ok {fs : List Field} {k : String} {s t : Symbols} {update : Slots fs → Slots fs}
    (ran : readMember fs k d s = .ok (update, t)) {slots : Slots fs} (gained : Gained d fs slots) :
    Gained d fs (update slots) := by
  induction fs generalizing s t with
  | nil => trivial
  | cons f fs ih =>
    rw [readMember] at ran
    split at ran
    · obtain ⟨_, r, _, ran⟩ := bind_inv ran
      obtain ⟨v, r', read, ran⟩ := bind_inv ran
      cases ran
      refine ⟨fun w same => ?_, gained.2⟩
      cases same
      exact .inl ⟨r, _, read⟩
    · obtain ⟨change, r, read, ran⟩ := bind_inv ran
      cases ran
      exact ⟨gained.1, ih read gained.2⟩

theorem member_ok {fs : List Field} {k : String} {s t : Symbols} {slots slots' : Slots fs}
    (gained : Gained d fs slots) (ran : member fs d k slots s = .ok (slots', t)) :
    Gained d fs slots' := by
  rw [member] at ran
  split at ran
  · cases ran
  · obtain ⟨update, _, read, ran⟩ := bind_inv ran
    cases ran
    exact readMember_ok read gained

theorem finish_ok {fs : List Field} {slots : Slots fs} {v : Values fs} (gained : Gained d fs slots)
    (done : finish fs slots = .ok v) : Values.Gained d fs v := by
  induction fs with
  | nil => trivial
  | cons f fs ih =>
    rw [finish] at done
    split at done
    · cases done
    · rename_i a value
      rcases others : finish fs slots.2 with e | w
      · rw [others] at done
        cases done
      · rw [others] at done
        cases done
        refine ⟨?_, ih gained.2 others⟩
        rcases Option.or_eq_some_iff.mp value with read | ⟨_, absent⟩
        · exact gained.1 a read
        · exact .inr (.inl absent)

end Slots

theorem Layout.read_ok {α : Type} {l : Layout α} {s t : Symbols} {a : α}
    (ran : l.codec.read d s = .ok (a, t)) :
    ∃ e v, d = e + 1 ∧ Values.Gained e l.fields v ∧ l.make v = a := by
  obtain ⟨c, r, _, ran⟩ := bind_inv ran
  split at ran
  · obtain ⟨e, rfl, entered⟩ := enter_ok ran
    obtain ⟨_, _, _, ran⟩ := bind_inv entered
    obtain ⟨slots, _, read, ran⟩ := bind_inv ran
    rw [Slots.readMembers_eq_members] at read
    have gained := members_keep (fun _ _ _ _ _ => Slots.member_ok) (Slots.gained_empty l.fields) read
    cases done : Slots.finish l.fields slots with
    | error error =>
      rw [done] at ran
      cases ran
    | ok values =>
      rw [done] at ran
      obtain ⟨_, _, _, ran⟩ := bind_inv ran
      cases ran
      exact ⟨e, values, rfl, Slots.finish_ok gained done, rfl⟩
  · obtain ⟨e, rfl, entered⟩ := enter_ok ran
    obtain ⟨values, _, read, ran⟩ := bind_inv entered
    obtain ⟨_, _, _, ran⟩ := bind_inv ran
    cases ran
    exact ⟨e, values, rfl, Values.readItems_ok read, rfl⟩
  · exact absurd ran mismatch_not_ok

/-! ### Values that were read -/

/-- A value that the reader of a codec gave within so many levels. -/
def Codec.Gave {α : Type} (c : Codec α) (d : Nat) (a : α) : Prop := ∃ s t, c.read d s = .ok (a, t)

section
variable {α : Type} {c : Codec α} {name : String} {a b : α}

theorem Field.gives_required {a : α} (gives : (Field.required name c).Gives d a) : c.Gave d a := by
  obtain read | none | none := gives
  · exact read
  · cases none
  · cases none

theorem Field.gives_defaulted {a : α} (gives : (Field.defaulted name c b).Gives d a) :
    c.Gave d a ∨ a = b := by
  obtain read | same | same := gives
  · exact .inl read
  · exact .inr (Option.some.inj same).symm
  · exact .inr (Option.some.inj same).symm

theorem Codec.Gave.items {l : List α} (gave : (Codec.list c).Gave d l) :
    ∃ e, d = e + 1 ∧ ∀ a ∈ l, c.Gave e a := by
  obtain ⟨s, t, ran⟩ := gave
  obtain ⟨_, r, _, ran⟩ := bind_inv ran
  split at ran
  · obtain ⟨e, rfl, entered⟩ := enter_ok ran
    exact ⟨e, rfl, allItems_ok entered⟩
  · exact absurd ran mismatch_not_ok

theorem Codec.gave_of_decode {bytes : ByteArray} (accepted : c.decode bytes = .ok a) :
    c.Gave depthLimit a := by
  rw [Codec.decode, Reader.run] at accepted
  rcases ran : StateT.run (do let a ← c.read depthLimit; skipBlank; return a : Scan α)
    (Symbols.ofBytes bytes) with e | ⟨b, rest⟩
  · rw [ran] at accepted
    cases accepted
  · rw [ran] at accepted
    obtain ⟨_, r, read, ran⟩ := bind_inv ran
    obtain ⟨_, _, _, ran⟩ := bind_inv ran
    cases ran
    have same : b = a := by
      simp only [bind, Except.bind] at accepted
      split at accepted
      · cases accepted
        rfl
      · cases accepted
    subst same
    exact ⟨_, r, read⟩

end

/-! ### How deep an accepted value nests -/

/-- What is written of a value that was read within `d` levels nests at most one level deeper. -/
def Codec.Bounded {α : Type} (c : Codec α) (d : Nat) : Prop :=
  ∀ s a t, c.read d s = .ok (a, t) → (c.write a).depth ≤ d + 1

def Codec.Within {α : Type} (c : Codec α) (n : Nat) : Prop := ∀ a, (c.write a).depth ≤ n

def Field.Bounded (f : Field) (d : Nat) : Prop :=
  ∀ v, f.Gives d v → ∀ j, f.write v = some j → j.depth ≤ d + 1

def Field.Within (f : Field) (n : Nat) : Prop := ∀ v j, f.write v = some j → j.depth ≤ n

namespace Codec

variable {α : Type} {c : Codec α} {n : Nat}

theorem Within.bounded (within : c.Within n) (less : n ≤ d + 1) : c.Bounded d :=
  fun _ a _ _ => Nat.le_trans (within a) less

theorem within_text (n : Nat) : text.Within n := fun _ => Nat.zero_le n

theorem bounded_text : text.Bounded d := (within_text 0).bounded (Nat.zero_le (d + 1))

theorem Within.option (within : c.Within n) : c.option.Within n
  | none => Nat.zero_le n
  | some a => within a

theorem Within.list (within : c.Within n) : (Codec.list c).Within (n + 1) := by
  intro l
  refine Nat.succ_le_succ (itemsDepth_le.mpr ?_)
  rw [List.forall_mem_map]
  exact fun a _ => within a

theorem Within.map (within : c.Within n) : (Codec.map c).Within (n + 1) := by
  intro m
  refine Nat.succ_le_succ (membersDepth_le.mpr ?_)
  rw [List.forall_mem_map]
  exact fun e _ => within e.2

theorem Bounded.option (bounded : c.Bounded d) : c.option.Bounded d := by
  intro s a t ran
  obtain ⟨_, r, _, ran⟩ := bind_inv ran
  split at ran
  · obtain ⟨_, _, _, ran⟩ := bind_inv ran
    cases ran
    exact Nat.zero_le (d + 1)
  · obtain ⟨b, read, rfl⟩ := map_inv ran
    exact bounded r b t read

theorem Bounded.list (bounded : ∀ e < d, c.Bounded e) : (Codec.list c).Bounded d := by
  intro s l t ran
  obtain ⟨e, rfl, read⟩ := Gave.items ⟨s, t, ran⟩
  refine Nat.succ_le_succ (itemsDepth_le.mpr ?_)
  rw [List.forall_mem_map]
  intro a member
  obtain ⟨s, t, ran⟩ := read a member
  exact bounded e (Nat.lt_succ_self e) s a t ran

theorem Bounded.depth_le {a : α} (bounded : c.Bounded d) (gave : c.Gave d a) :
    (c.write a).depth ≤ d + 1 := by
  obtain ⟨s, t, ran⟩ := gave
  exact bounded s a t ran

end Codec

namespace Field

variable {α : Type} {name : String} {c : Codec α} {n : Nat}

theorem Within.bounded {f : Field} (within : f.Within n) (less : n ≤ d + 1) : f.Bounded d :=
  fun v _ j written => Nat.le_trans (within v j written) less

theorem Within.required (within : c.Within n) : (Field.required name c).Within n := by
  intro a j written
  cases written
  exact within a

theorem Within.defaulted {b : α} (within : c.Within n) : (Field.defaulted name c b).Within n := by
  intro a j written
  cases written
  exact within a

theorem Within.optional (within : c.Within n) : (Field.optional name c).Within n := by
  intro a j written
  cases a with
  | none => cases written
  | some a =>
    cases written
    exact within a

theorem Within.nullable (within : c.Within n) : (Field.nullable name c).Within n := by
  intro a j written
  cases written
  exact within.option a

theorem Bounded.required (bounded : c.Bounded d) : (Field.required name c).Bounded d := by
  intro a gives j written
  cases written
  exact bounded.depth_le (gives_required gives)

theorem Bounded.defaulted {b : α} (bounded : c.Bounded d) (missing : (c.write b).depth ≤ d + 1) :
    (Field.defaulted name c b).Bounded d := by
  intro a gives j written
  cases written
  obtain gave | same := gives_defaulted gives
  · exact bounded.depth_le gave
  · rwa [same]

theorem Bounded.optional (bounded : c.Bounded d) : (Field.optional name c).Bounded d := by
  rintro a (⟨s, t, read⟩ | none | none) j written
  · have deep := bounded.option s a t read
    cases a with
    | none => cases written
    | some a =>
      cases written
      exact deep
  · cases none
    cases written
  · cases none
    cases written

end Field

theorem Values.members_bounded {fs : List Field} (each : fs.Forall (Field.Bounded · d)) {v : Values fs}
    (gained : Gained d fs v) : membersDepth (members fs v) ≤ d + 1 := by
  induction fs with
  | nil => exact Nat.zero_le (d + 1)
  | cons f fs ih =>
    rw [List.forall_cons] at each
    have rest := ih each.2 gained.2
    simp only [members]
    split
    · exact rest
    · rename_i j written
      exact Nat.max_le.mpr ⟨each.1 v.1 gained.1 j written, rest⟩

theorem Values.members_within {n : Nat} {fs : List Field} (each : fs.Forall (Field.Within · n))
    (v : Values fs) : membersDepth (members fs v) ≤ n := by
  induction fs with
  | nil => exact Nat.zero_le n
  | cons f fs ih =>
    rw [List.forall_cons] at each
    have rest := ih each.2 v.2
    simp only [members]
    split
    · exact rest
    · rename_i j written
      exact Nat.max_le.mpr ⟨each.1 v.1 j written, rest⟩

namespace Layout

variable {α : Type} {l : Layout α}

theorem bounded (each : ∀ e < d, l.fields.Forall (Field.Bounded · e))
    (parted : ∀ v, l.parts (l.make v) = v) : l.codec.Bounded d := by
  intro s a t ran
  obtain ⟨e, v, rfl, gained, rfl⟩ := Layout.read_ok ran
  have deep := Values.members_bounded (each e (Nat.lt_succ_self e)) gained
  rw [← parted v] at deep
  exact Nat.succ_le_succ deep

theorem within {n : Nat} (each : l.fields.Forall (Field.Within · n)) : l.codec.Within (n + 1) :=
  fun a => Nat.succ_le_succ (Values.members_within each (l.parts a))

end Layout

theorem Codec.Bounded.decode {α : Type} {c : Codec α} (bounded : c.Bounded depthLimit)
    {bytes : ByteArray} {a : α} (accepted : c.decode bytes = .ok a) :
    (c.write a).depth ≤ depthLimit + 1 :=
  bounded.depth_le (gave_of_decode accepted)

end SignedManifest.Json
