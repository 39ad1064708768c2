import SignedManifest.Proofs.Json.Scanning
import SignedManifest.Proofs.SortedMap

/-!
Readers that take back what writers give. A value may be written with the members of its objects in
another order; a reader that takes it gives the same in any order, as long as the value does not nest
deeper than the reader may go, and refuses it otherwise.
-/
namespace SignedManifest.Json
open Scan

/-! ### Orders of members -/

/-- A change of nothing but the order of members. -/
structure Arranges (form : Json → Json) : Prop where
  null : form .null = .null
  bool : ∀ b, form (.bool b) = .bool b
  num : ∀ n, form (.num n) = .num n
  str : ∀ s, form (.str s) = .str s
  arr : ∀ l, form (.arr l) = .arr (l.map form)
  obj : ∀ ms : List (String × Json), (ms.map Prod.fst).Nodup →
    ∃ l : List (String × Json), l.Perm ms ∧ form (.obj ms) = .obj (l.map fun m => (m.1, form m.2))
  filled : ∀ j, j ≠ .null → form j ≠ .null

theorem arranges_id : Arranges id where
  null := rfl
  bool _ := rfl
  num _ := rfl
  str _ := rfl
  arr l := by simp
  obj ms _ := ⟨ms, .refl ms, by simp⟩
  filled j other := other

theorem sortedItems_eq (l : List Json) : sortedItems l = l.map sorted := by
  induction l with
  | nil => rfl
  | cons j l ih => rw [sortedItems, ih, List.map_cons]

theorem sortedMembers_eq (ms : List (String × Json)) :
    sortedMembers ms = ms.map fun m => (m.1, m.2.sorted) := by
  induction ms with
  | nil => rfl
  | cons m ms ih => rw [sortedMembers, ih, List.map_cons]

theorem arranges_sorted : Arranges sorted where
  null := rfl
  bool _ := rfl
  num _ := rfl
  str _ := rfl
  arr l := by rw [sorted, sortedItems_eq]
  obj ms distinct := by
    refine ⟨(SortedMap.ofList ms).toList, SortedMap.ofList_perm distinct, ?_⟩
    rw [sorted, sortedMembers_eq, SortedMap.toList_ofList_map]
  filled j other := by cases j <;> simp_all [sorted]

/-! ### How values begin -/

theorem chars_begin (j : Json) : ∃ c r, j.chars = c :: r ∧ isBlank (some c) = false ∧ c ≠ ',' ∧
    c ≠ ']' ∧ (j ≠ .null → c ≠ 'n') := by
  cases j with
  | null => exact ⟨'n', _, rfl, by decide, by decide, by decide, by simp⟩
  | bool b =>
    cases b
    · exact ⟨'f', _, rfl, by decide, by decide, by decide, fun _ => by decide⟩
    · exact ⟨'t', _, rfl, by decide, by decide, by decide, fun _ => by decide⟩
  | num n =>
    rw [num_chars]
    split
    · obtain ⟨c, r, split⟩ := List.exists_cons_of_ne_nil (@Nat.toDigits_ne_nil n.toNat 10)
      have digit : Text.isDigit c = true := Text.isDigit_toDigits (n := n.toNat) (by simp [split])
      refine ⟨c, r, split, digit_solid digit, ?_, ?_, fun _ => ?_⟩
      all_goals
        rintro rfl
        simp [Text.isDigit] at digit
    · exact ⟨'-', _, rfl, by decide, by decide, by decide, fun _ => by decide⟩
  | str s => exact ⟨'"', _, rfl, by decide, by decide, by decide, fun _ => by decide⟩
  | arr l => exact ⟨'[', _, rfl, by decide, by decide, by decide, fun _ => by decide⟩
  | obj ms => exact ⟨'\x7b', _, rfl, by decide, by decide, by decide, fun _ => by decide⟩

/-! ### Taking a value back -/

/-- A reader that may open `d` levels takes `j` for `a`, whatever follows. -/
def Reader.Takes {α : Type} (r : Reader α) (d : Nat) (j : Json) (a : α) : Prop :=
  ∀ form, Arranges form → ∀ rest, Closed rest →
    r d ((form j).chars.map some ++ rest) =
      if j.depth ≤ d then .ok (a, rest) else .error .malformed

theorem Reader.Takes.map {α β : Type} {r : Reader α} {d : Nat} {j : Json} {a : α}
    (takes : r.Takes d j a) (f : α → β) : Reader.Takes (fun d => f <$> r d) d j (f a) := by
  intro form arranges rest closed
  have read := takes form arranges rest closed
  by_cases fit : j.depth ≤ d
  · simp only [map_eq, read, if_pos fit]
  · simp only [map_eq, read, if_neg fit]

namespace Codec
open Reader

variable {α : Type} {d : Nat}

theorem takes_textAs (expected t : String) (d : Nat) : (textAs expected).read.Takes d (.str t) t := by
  intro form arranges rest _
  have solid : isBlank (some '"') = false := by decide
  rw [arranges.str, chars, stringChars_symbols]
  simp [textAs, depth, solid, string_eq]

theorem takes_bool (b : Bool) (d : Nat) : bool.read.Takes d (.bool b) b := by
  intro form arranges rest _
  rw [arranges.bool]
  cases b
  · have solid : isBlank (some 'f') = false := by decide
    have read := word_false rest
    simp at read
    simp [bool, depth, chars, solid, read]
  · have solid : isBlank (some 't') = false := by decide
    have read := word_true rest
    simp at read
    simp [bool, depth, chars, solid, read]

theorem takes_integer (expected : String) (narrow? : Int → Option α) {i : Int} {a : α}
    (least : -(1 <<< 63 : Nat) ≤ i) (most : i < UInt64.size) (narrowed : narrow? i = some a)
    (d : Nat) : Takes (fun _ => integer expected narrow?) d (.num i) a := by
  intro form arranges rest closed
  rw [arranges.num, if_pos (by simp [depth])]
  exact integer_eq least most narrowed closed

theorem takes_u32 (n : UInt32) (d : Nat) : u32.read.Takes d (u32.write n) n := by
  have bound := n.toNat_lt
  refine takes_integer "u32"
    (fun i => if 0 ≤ i ∧ i < UInt32.size then some (UInt32.ofNat i.toNat) else none)
    (by omega) ?_ ?_ d
  · simp only [UInt64.size]
    omega
  · have inside : (0 : Int) ≤ n.toNat ∧ (n.toNat : Int) < UInt32.size := by
      simp only [UInt32.size]
      omega
    simp only [inside, and_self, ↓reduceIte, Int.toNat_natCast, UInt32.ofNat_toNat]

theorem takes_u64 (n : UInt64) (d : Nat) : u64.read.Takes d (u64.write n) n := by
  have bound := n.toNat_lt
  have inside : (0 : Int) ≤ n.toNat ∧ (n.toNat : Int) < UInt64.size := by
    simp only [UInt64.size]
    omega
  refine takes_integer "u64"
    (fun i => if 0 ≤ i ∧ i < UInt64.size then some (UInt64.ofNat i.toNat) else none)
    (by omega) inside.2 ?_ d
  simp only [inside, and_self, ↓reduceIte, Int.toNat_natCast, UInt64.ofNat_toNat]

theorem takes_i64 (n : Int64) (d : Nat) : i64.read.Takes d (i64.write n) n := by
  have least := n.le_toInt
  have most := n.toInt_lt
  refine takes_integer "i64" (fun i => if Int64.minValue.toInt ≤ i ∧ i ≤ Int64.maxValue.toInt then
    some (Int64.ofInt i) else none) (by omega) ?_ ?_ d
  · simp only [UInt64.size]
    omega
  · simp only [n.minValue_le_toInt, n.toInt_le, and_self, ↓reduceIte, Int64.ofInt_toInt]

theorem takes_choice [BEq α] {known : List (String × α)} {a : α}
    (found : known.lookup (((known.find? fun e => e.2 == a).map (·.1)).getD "") = some a) (d : Nat) :
    (choice known).read.Takes d ((choice known).write a) a := by
  intro form arranges rest _
  have solid : isBlank (some '"') = false := by decide
  have spelled : (choice known).write a =
    .str (((known.find? fun e => e.2 == a).map (·.1)).getD "") := rfl
  rw [spelled, arranges.str, chars, stringChars_symbols]
  simp [choice, variant, found, depth, solid, string_eq]

/-! ### Null and values -/

theorem takes_none (c : Codec α) (d : Nat) : c.option.read.Takes d .null none := by
  intro form arranges rest _
  rw [arranges.null]
  have solid : isBlank (some 'n') = false := by decide
  have read := word_null rest
  simp at read
  simp [option, depth, chars, solid, read]

theorem takes_some {c : Codec α} {j : Json} {a : α} (filled : j ≠ .null)
    (takes : c.read.Takes d j a) : c.option.read.Takes d j (some a) := by
  intro form arranges rest closed
  have read := takes form arranges rest closed
  obtain ⟨x, r, split, solid, _, _, other⟩ := chars_begin (form j)
  have other := other (arranges.filled j filled)
  rw [split] at read ⊢
  simp only [List.map_cons, List.cons_append] at read ⊢
  simp only [option, bind_eq, peekPart_eq, List.dropWhile_cons, solid, Bool.false_eq_true,
    ↓reduceIte, List.head?_cons, Option.join_some, Option.some.injEq, other, map_eq, read]
  by_cases fit : j.depth ≤ d <;> simp [fit]

/-! ### Arrays -/

def laterItems (l : List Json) : List Char := l.flatMap fun j => ',' :: j.chars

theorem itemChars_cons (j : Json) (l : List Json) :
    itemChars (j :: l) = j.chars ++ laterItems l := by
  induction l generalizing j with
  | nil => simp [itemChars, laterItems]
  | cons k l ih => simp [itemChars, laterItems, ih k]

theorem itemChars_length (l : List Json) : l.length ≤ (itemChars l).length := by
  induction l with
  | nil => simp
  | cons j l ih =>
    obtain ⟨c, r, split, _⟩ := chars_begin j
    have later : l.length ≤ (laterItems l).length := by
      clear ih
      induction l with
      | nil => simp
      | cons k l ih =>
        simp only [laterItems, List.flatMap_cons, List.length_append, List.length_cons] at ih ⊢
        omega
    rw [itemChars_cons, split, List.length_append, List.length_cons, List.length_cons]
    omega

theorem closed_laterItems (l : List Json) (rest : Symbols) :
    Closed ((laterItems l).map some ++ some ']' :: rest) := by
  cases l <;> simp [laterItems, Closed]

theorem nextItem_begin {x : Char} {r : Symbols} (solid : isBlank (some x) = false)
    (apart : x ≠ ']') : nextItem true (some x :: r) = .ok (true, some x :: r) := by
  by_cases comma : x = ','
  · subst x
    simp [nextItem, solid]
  · simp [nextItem, solid, apart, comma]

theorem nextItem_later {x : Char} {r : Symbols} (solid : isBlank (some x) = false)
    (apart : x ≠ ']') : nextItem false (some ',' :: some x :: r) = .ok (true, some x :: r) := by
  have comma : isBlank (some ',') = false := by decide
  simp [nextItem, comma, solid, apart]

theorem nextItem_end (first : Bool) (r : Symbols) :
    nextItem first (some ']' :: r) = .ok (false, some ']' :: r) := by
  have bracket : isBlank (some ']') = false := by decide
  simp [nextItem, bracket]

section
variable {β : Type} {item : Scan α} {w : β → Json} {value : β → α} {fits : β → Prop}
  [DecidablePred fits]

/- The items after the first; the first one too long for the reader is where it stops. -/
theorem items_later {l : List β} (each : ∀ b ∈ l, ∀ rest, Closed rest →
      item ((w b).chars.map some ++ rest) =
        if fits b then .ok (value b, rest) else .error .malformed)
    {n : Nat} (fuel : l.length < n) (acc : List α) (rest : Symbols) :
    items item n false acc ((laterItems (l.map w)).map some ++ some ']' :: rest) =
      if ∀ b ∈ l, fits b then .ok (acc.reverse ++ l.map value, some ']' :: rest)
      else .error .malformed := by
  induction l generalizing n acc with
  | nil =>
    obtain ⟨n, rfl⟩ := Nat.exists_eq_add_one.mpr fuel
    simp [items, laterItems, nextItem_end]
  | cons b l ih =>
    obtain ⟨n, rfl⟩ := Nat.exists_eq_add_one.mpr (Nat.zero_lt_of_lt fuel)
    obtain ⟨x, r, split, solid, _, apart, _⟩ := chars_begin (w b)
    have read := each b (by simp) _ (closed_laterItems (l.map w) rest)
    have later := ih (fun c member => each c (List.mem_cons_of_mem _ member))
      (Nat.lt_of_succ_lt_succ fuel)
    have text : (laterItems ((b :: l).map w)).map some ++ some ']' :: rest =
        some ',' :: ((w b).chars.map some ++ ((laterItems (l.map w)).map some ++ some ']' :: rest)) := by
      simp [laterItems]
    rw [text]
    rw [split] at read ⊢
    simp only [List.map_cons, List.cons_append] at read ⊢
    simp only [items, bind_eq, nextItem_later solid apart, ↓reduceIte, read]
    by_cases fit : fits b
    · simp [fit, later]
    · simp [fit]

theorem items_eq {l : List β} (each : ∀ b ∈ l, ∀ rest, Closed rest →
      item ((w b).chars.map some ++ rest) =
        if fits b then .ok (value b, rest) else .error .malformed)
    {n : Nat} (fuel : l.length < n) (rest : Symbols) :
    items item n true [] ((itemChars (l.map w)).map some ++ some ']' :: rest) =
      if ∀ b ∈ l, fits b then .ok (l.map value, some ']' :: rest) else .error .malformed := by
  obtain ⟨n, rfl⟩ := Nat.exists_eq_add_one.mpr (Nat.zero_lt_of_lt fuel)
  cases l with
  | nil => simp [items, itemChars, nextItem_end]
  | cons b l =>
    obtain ⟨x, r, split, solid, _, apart, _⟩ := chars_begin (w b)
    have read := each b (by simp) _ (closed_laterItems (l.map w) rest)
    have later := items_later (fun c member => each c (List.mem_cons_of_mem _ member))
      (Nat.lt_of_succ_lt_succ fuel) [value b] rest
    rw [List.map_cons, itemChars_cons, List.map_append, List.append_assoc]
    rw [split] at read ⊢
    simp only [List.map_cons, List.cons_append] at read ⊢
    simp only [items, bind_eq, nextItem_begin solid apart, ↓reduceIte, read]
    by_cases fit : fits b
    · simp [fit, later]
    · simp [fit]

theorem allItems_eq {l : List β} (each : ∀ b ∈ l, ∀ rest, Closed rest →
      item ((w b).chars.map some ++ rest) =
        if fits b then .ok (value b, rest) else .error .malformed) (rest : Symbols) :
    allItems item ((itemChars (l.map w)).map some ++ some ']' :: rest) =
      if ∀ b ∈ l, fits b then .ok (l.map value, rest) else .error .malformed := by
  have fuel : l.length < ((itemChars (l.map w)).map some ++ some ']' :: rest).length + 1 := by
    have := itemChars_length (l.map w)
    simp only [List.length_map, List.length_append] at this ⊢
    omega
  have ends : punctuation ']' (some ']' :: rest) = .ok ((), rest) := punctuation_eq (by decide) rest
  simp only [allItems, bind_eq, get_eq, items_eq each fuel]
  by_cases fit : ∀ b ∈ l, fits b
  · simp only [if_pos fit, ends]
    rfl
  · simp only [if_neg fit]

end

theorem itemsDepth_le {l : List Json} {d : Nat} : itemsDepth l ≤ d ↔ ∀ j ∈ l, j.depth ≤ d := by
  induction l with
  | nil => simp [itemsDepth]
  | cons j l ih => rw [itemsDepth, Nat.max_le, ih, List.forall_mem_cons]

theorem takes_list {c : Codec α} {l : List α} {f : α → α}
    (each : ∀ e < d, ∀ a ∈ l, c.read.Takes e (c.write a) (f a)) :
    (list c).read.Takes d ((list c).write l) (l.map f) := by
  intro form arranges rest _
  have solid : isBlank (some '[') = false := by decide
  have text : ((form ((list c).write l)).chars.map some ++ rest) =
      some '[' :: ((itemChars (l.map fun a => form (c.write a))).map some ++ some ']' :: rest) := by
    simp [list, arranges.arr, chars, Function.comp_def]
  have deep : ((list c).write l).depth = itemsDepth (l.map c.write) + 1 := rfl
  rw [text, deep]
  simp only [list, bind_eq, peekPart_eq, List.dropWhile_cons, solid, Bool.false_eq_true, ↓reduceIte,
    List.head?_cons, Option.join_some]
  cases d with
  | zero => rfl
  | succ d =>
    have all := allItems_eq (fun a member rest closed =>
      each d (Nat.lt_succ_self d) a member form arranges rest closed) rest
    rw [enter_succ, all]
    simp [itemsDepth_le]

end Codec

end SignedManifest.Json
