import Mathlib.Data.List.Perm.Basic
import SignedManifest.Json.Layout
import SignedManifest.Proofs.Json.Taking

/-!
Members of objects, taken back in whatever order they stand. Maps and records read them by one loop,
each with a step of its own; a step need only take in each member after the ones before it.
-/
namespace SignedManifest.Json

/-! ### The loop -/

namespace Scan

def members {σ : Type} (step : String → σ → Scan σ) : Nat → (first : Bool) → σ → Scan σ
  | 0, _, _ => malformed
  | n + 1, first, state => do
    if ← nextKey first then
      let k ← key
      let state ← step k state
      members step n false state
    else return state

def entry {α : Type} (value : Scan α) (k : String) (acc : List (String × α)) :
    Scan (List (String × α)) := do
  punctuation ':'
  let x ← value
  return (k, x) :: acc

theorem entries_eq_members {α : Type} (value : Scan α) (n : Nat) (first : Bool)
    (acc : List (String × α)) :
    entries value n first acc = List.reverse <$> members (entry value) n first acc := by
  induction n generalizing first acc with
  | zero => rfl
  | succ n ih =>
    funext s
    simp only [entries, members, bind_eq, map_eq]
    rcases nextKey first s with e | ⟨_ | _, s⟩
    · rfl
    · rfl
    · simp only [↓reduceIte, bind_eq, entry, ih, map_eq]
      rcases key s with e | ⟨k, s⟩
      · rfl
      dsimp only
      rcases punctuation ':' s with e | ⟨_, s⟩
      · rfl
      dsimp only
      rcases value s with e | ⟨x, s⟩ <;> rfl

variable {σ β : Type}

def laterMembers (ms : List (String × Json)) : List Char :=
  ms.flatMap fun m => ',' :: (stringChars m.1 ++ ':' :: m.2.chars)

theorem memberChars_cons (m : String × Json) (ms : List (String × Json)) :
    memberChars (m :: ms) = stringChars m.1 ++ ':' :: m.2.chars ++ laterMembers ms := by
  induction ms generalizing m with
  | nil => simp [memberChars, laterMembers]
  | cons k ms ih => simp [memberChars, laterMembers, ih k]

theorem memberChars_length (ms : List (String × Json)) : ms.length ≤ (memberChars ms).length := by
  induction ms with
  | nil => simp
  | cons m ms ih =>
    have later : ms.length ≤ (laterMembers ms).length := by
      clear ih
      induction ms with
      | nil => simp
      | cons k ms ih =>
        simp only [laterMembers, List.flatMap_cons, List.length_append, List.length_cons] at ih ⊢
        omega
    simp only [memberChars_cons, List.length_append, List.length_cons]
    omega

theorem closed_laterMembers (ms : List (String × Json)) (rest : Symbols) :
    Closed ((laterMembers ms).map some ++ some '\x7d' :: rest) := by
  cases ms <;> simp [laterMembers, Closed]

theorem nextKey_begin (r : Symbols) : nextKey true (some '"' :: r) = .ok (true, some '"' :: r) := by
  have quote : isBlank (some '"') = false := by decide
  simp [nextKey, quote]

theorem nextKey_later (r : Symbols) :
    nextKey false (some ',' :: some '"' :: r) = .ok (true, some '"' :: r) := by
  have comma : isBlank (some ',') = false := by decide
  have quote : isBlank (some '"') = false := by decide
  simp [nextKey, comma, quote]

theorem nextKey_end (first : Bool) (r : Symbols) :
    nextKey first (some '\x7d' :: r) = .ok (false, some '\x7d' :: r) := by
  have brace : isBlank (some '\x7d') = false := by decide
  simp [nextKey, brace]

theorem key_eq (k : String) (r : Symbols) : key ((stringChars k).map some ++ r) = .ok (k, r) := by
  rw [stringChars_symbols]
  simp [key, string_eq]

/-- A step takes in each of the members `l` when those before it are taken in. The members are
written as `w` says, and `state` is what the loop holds after some of them. -/
def StepsThrough (step : String → σ → Scan σ) (state : List β → σ) (name : β → String) (w : β → Json)
    (fits : β → Prop) [DecidablePred fits] (l : List β) : Prop :=
  ∀ done b more, l = done ++ b :: more → ∀ rest, Closed rest →
    step (name b) (state done) (some ':' :: ((w b).chars.map some ++ rest)) =
      if fits b then .ok (state (done ++ [b]), rest) else .error .malformed

section
variable {step : String → σ → Scan σ} {state : List β → σ} {name : β → String} {w : β → Json}
  {fits : β → Prop} [DecidablePred fits] {l : List β}

/- The induction is on the members that are yet to be read. -/
theorem members_later (steps : StepsThrough step state name w fits l) {done more : List β}
    (whole : l = done ++ more) {n : Nat} (fuel : more.length < n) (rest : Symbols) :
    members step n false (state done)
        ((laterMembers (more.map fun b => (name b, w b))).map some ++ some '\x7d' :: rest) =
      if ∀ b ∈ more, fits b then .ok (state l, some '\x7d' :: rest) else .error .malformed := by
  induction more generalizing n done with
  | nil =>
    obtain ⟨n, rfl⟩ := Nat.exists_eq_add_one.mpr fuel
    simp [members, laterMembers, nextKey_end, whole]
  | cons b more ih =>
    obtain ⟨n, rfl⟩ := Nat.exists_eq_add_one.mpr (Nat.zero_lt_of_lt fuel)
    have read := steps done b more whole _
      (closed_laterMembers (more.map fun b => (name b, w b)) rest)
    have later := @ih (done ++ [b]) (by simp [whole]) n (Nat.lt_of_succ_lt_succ fuel)
    have text : (laterMembers ((b :: more).map fun b => (name b, w b))).map some ++
          some '\x7d' :: rest =
        some ',' :: ((stringChars (name b)).map some ++ some ':' :: ((w b).chars.map some ++
          ((laterMembers (more.map fun b => (name b, w b))).map some ++ some '\x7d' :: rest))) := by
      simp [laterMembers]
    have named := key_eq (name b) (some ':' :: ((w b).chars.map some ++
      ((laterMembers (more.map fun b => (name b, w b))).map some ++ some '\x7d' :: rest)))
    rw [text]
    rw [stringChars_symbols] at named ⊢
    simp only [members, bind_eq, nextKey_later, ↓reduceIte, named, read]
    by_cases fit : fits b
    · simp [fit, later]
    · simp [fit]

theorem members_begin (steps : StepsThrough step state name w fits l) {n : Nat} (fuel : l.length < n)
    (rest : Symbols) :
    members step n true (state [])
        ((memberChars (l.map fun b => (name b, w b))).map some ++ some '\x7d' :: rest) =
      if ∀ b ∈ l, fits b then .ok (state l, some '\x7d' :: rest) else .error .malformed := by
  obtain ⟨n, rfl⟩ := Nat.exists_eq_add_one.mpr (Nat.zero_lt_of_lt fuel)
  cases l with
  | nil => simp [members, memberChars, nextKey_end]
  | cons b l =>
    have read := steps [] b l rfl _ (closed_laterMembers (l.map fun b => (name b, w b)) rest)
    have later := @members_later _ _ _ _ _ _ _ _ _ steps [b] l rfl n
      (Nat.lt_of_succ_lt_succ fuel) rest
    have named := key_eq (name b) (some ':' :: ((w b).chars.map some ++
      ((laterMembers (l.map fun b => (name b, w b))).map some ++ some '\x7d' :: rest)))
    have text : (memberChars ((b :: l).map fun b => (name b, w b))).map some ++ some '\x7d' :: rest =
        (stringChars (name b)).map some ++ some ':' :: ((w b).chars.map some ++
          ((laterMembers (l.map fun b => (name b, w b))).map some ++ some '\x7d' :: rest)) := by
      simp [memberChars_cons]
    rw [text]
    rw [stringChars_symbols] at named ⊢
    simp only [members, bind_eq, nextKey_begin, ↓reduceIte, named, read]
    by_cases fit : fits b
    · simp [fit, later]
    · simp [fit]

/- All members of an object; its text is long enough to be the fuel. -/
theorem members_eq (steps : StepsThrough step state name w fits l) (rest : Symbols) :
    members step (((memberChars (l.map fun b => (name b, w b))).map some ++
          some '\x7d' :: rest).length + 1) true (state [])
        ((memberChars (l.map fun b => (name b, w b))).map some ++ some '\x7d' :: rest) =
      if ∀ b ∈ l, fits b then .ok (state l, some '\x7d' :: rest) else .error .malformed := by
  have short := memberChars_length (l.map fun b => (name b, w b))
  refine members_begin steps ?_ rest
  simp only [List.length_map, List.length_append] at short ⊢
  omega

end

end Scan

theorem Arranges.object {β : Type} {form : Json → Json} (arranges : Arranges form)
    (name : β → String) (w : β → Json) {bs : List β} (once : (bs.map name).Nodup) :
    ∃ l : List β, l.Perm bs ∧ ∀ rest,
      (form (.obj (bs.map fun b => (name b, w b)))).chars.map some ++ rest =
        some '\x7b' :: ((memberChars (l.map fun b => (name b, form (w b)))).map some ++
          some '\x7d' :: rest) := by
  have distinct : ((bs.map fun b => (name b, w b)).map Prod.fst).Nodup := by
    simpa [Function.comp_def] using once
  obtain ⟨ms, moved, arranged⟩ := arranges.obj _ distinct
  obtain ⟨l, rfl, perm⟩ := (congrFun₂ (List.eq_map_comp_perm _) ms bs).mpr moved
  refine ⟨l, perm, fun rest => ?_⟩
  simp [arranged, chars, Function.comp_def]

theorem membersDepth_le {ms : List (String × Json)} {d : Nat} :
    membersDepth ms ≤ d ↔ ∀ m ∈ ms, m.2.depth ≤ d := by
  induction ms with
  | nil => simp [membersDepth]
  | cons m ms ih => rw [membersDepth, Nat.max_le, ih, List.forall_mem_cons]

open Scan

theorem Reader.takes_object {α β : Type} {d : Nat} {read body : Reader α}
    (opens : ∀ d s, read d (some '\x7b' :: s) = enter body d (some '\x7b' :: s)) (name : β → String)
    (w : β → Json) {bs : List β} (once : (bs.map name).Nodup) {a : α}
    (inside : ∀ e < d, ∀ form, Arranges form → ∀ l : List β, l.Perm bs → ∀ rest,
      body e ((memberChars (l.map fun b => (name b, form (w b)))).map some ++ some '\x7d' :: rest) =
        if ∀ b ∈ l, (w b).depth ≤ e then .ok (a, rest) else .error .malformed) :
    read.Takes d (.obj (bs.map fun b => (name b, w b))) a := by
  intro form arranges rest _
  obtain ⟨l, perm, text⟩ := arranges.object name w once
  have deep : (Json.obj (bs.map fun b => (name b, w b))).depth =
      membersDepth (bs.map fun b => (name b, w b)) + 1 := rfl
  rw [text, deep, opens]
  cases d with
  | zero => rfl
  | succ d =>
    have fits : membersDepth (bs.map fun b => (name b, w b)) ≤ d ↔ ∀ b ∈ l, (w b).depth ≤ d := by
      simp only [membersDepth_le, List.forall_mem_map, perm.mem_iff]
    rw [enter_succ, inside d (Nat.lt_succ_self d) form arranges l perm rest]
    simp only [Nat.add_le_add_iff_right, fits]

/-! ### Maps -/

namespace Codec

variable {α : Type} {d : Nat}

theorem takes_map {c : Codec α} {m : SortedMap String α}
    (each : ∀ e < d, ∀ a ∈ m.values, c.read.Takes e (c.write a) a) :
    (map c).read.Takes d ((map c).write m) m := by
  have opens (d : Nat) (s : Symbols) : (map c).read d (some '\x7b' :: s) =
      enter (fun d => SortedMap.ofList <$> allEntries (c.read d)) d (some '\x7b' :: s) := by
    have solid : isBlank (some '\x7b') = false := by decide
    cases d <;> simp [map, solid, enter]
  refine Reader.takes_object opens Prod.fst (fun e => c.write e.2) m.keys_nodup ?_
  intro d less form arranges l perm rest
  have steps : StepsThrough (entry (c.read d)) List.reverse Prod.fst
      (fun e => form (c.write e.2)) (fun e => (c.write e.2).depth ≤ d) l := by
    intro done e more whole rest closed
    have member : e.2 ∈ m.values := List.mem_map_of_mem (perm.mem_iff.mp (by simp [whole]))
    have read := each d less e.2 member form arranges rest closed
    have colon := punctuation_eq (c := ':') (by decide) ((form (c.write e.2)).chars.map some ++ rest)
    simp only [entry, bind_eq, colon, read]
    by_cases fit : (c.write e.2).depth ≤ d <;> simp [fit]
  have all := members_eq steps rest
  have ends : punctuation '\x7d' (some '\x7d' :: rest) = .ok ((), rest) :=
    punctuation_eq (by decide) rest
  rw [List.reverse_nil] at all
  simp only [allEntries, bind_eq, get_eq, entries_eq_members, map_eq, all]
  by_cases fit : ∀ e ∈ l, (c.write e.2).depth ≤ d
  · simp only [if_pos fit, ends, List.reverse_reverse, pure_eq, SortedMap.ofList_eq perm]
  · simp only [if_neg fit]

end Codec

end SignedManifest.Json
