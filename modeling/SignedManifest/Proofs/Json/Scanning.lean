import Mathlib.Data.List.Basic
import SignedManifest.Json.Codec
import SignedManifest.Proofs.Text.Digits

/-!
Reading the parts of a JSON text back: words, strings with their escapes, and integers. What follows
a value is the end of the text or a mark that closes or separates, so that a numeral ends where it
was written to end.
-/
namespace SignedManifest.Json

/-- A text that may follow a value. -/
def Closed (rest : Symbols) : Prop :=
  ∀ s, rest.head? = some s → s = some ',' ∨ s = some ']' ∨ s = some '\x7d'

theorem Closed.nil : Closed [] := by simp [Closed]

@[simp] theorem closed_comma (r : Symbols) : Closed (some ',' :: r) := by simp [Closed]

@[simp] theorem closed_bracket (r : Symbols) : Closed (some ']' :: r) := by simp [Closed]

@[simp] theorem closed_brace (r : Symbols) : Closed (some '\x7d' :: r) := by simp [Closed]

namespace Scan
open Text

/-! ### Steps -/

section
variable {α β : Type} {s t : Symbols} {a : α} {e : ReadError}

@[simp] theorem bind_eq (x : Scan α) (f : α → Scan β) (s : Symbols) :
    (x >>= f) s = match x s with
      | .ok (a, t) => f a t
      | .error e => .error e := by
  simp only [bind, StateT.bind, Except.bind]
  rcases x s with e | ⟨a, t⟩ <;> rfl

@[simp] theorem pure_eq (a : α) (s : Symbols) : (pure a : Scan α) s = .ok (a, s) := rfl

@[simp] theorem map_eq (f : α → β) (x : Scan α) (s : Symbols) :
    (f <$> x) s = match x s with
      | .ok (a, t) => .ok (f a, t)
      | .error e => .error e := by
  simp only [Functor.map, StateT.map, bind, Except.bind]
  rcases x s with e | ⟨a, t⟩ <;> rfl

@[simp] theorem get_eq (s : Symbols) : (get : Scan Symbols) s = .ok (s, s) := rfl

@[simp] theorem malformed_eq (s : Symbols) : (malformed : Scan α) s = .error .malformed := rfl

@[simp] theorem fail_eq (e : DataError) (s : Symbols) : (fail e : Scan α) s = .error (.data e) := rfl

@[simp] theorem advance_eq (s : Symbols) : advance s = .ok ((), s.tail) := rfl

@[simp] theorem peek_eq (s : Symbols) : peek s = .ok (s.head?.join, s) := rfl

@[simp] theorem skipBlank_eq (s : Symbols) : skipBlank s = .ok ((), s.dropWhile isBlank) := rfl

@[simp] theorem peekPart_eq (s : Symbols) :
    peekPart s = .ok ((s.dropWhile isBlank).head?.join, s.dropWhile isBlank) := by
  simp [peekPart]

theorem enter_succ (body : Reader α) (d : Nat) (x : Option Char) (r : Symbols) :
    enter body (d + 1) (x :: r) = body d r := by
  simp [enter]

theorem isBlank_iff (c : Char) :
    isBlank (some c) = true ↔ c = ' ' ∨ c = '\n' ∨ c = '\t' ∨ c = '\r' := by
  simp [isBlank, or_assoc]

theorem punctuation_eq {c : Char} (solid : isBlank (some c) = false) (r : Symbols) :
    punctuation c (some c :: r) = .ok ((), r) := by
  simp [punctuation, solid]

theorem word_eq (cs : List Char) (r : Symbols) : word cs (cs.map some ++ r) = .ok ((), r) := by
  induction cs with
  | nil => rfl
  | cons c cs ih => simpa [word] using ih

theorem word_null (r : Symbols) :
    word "null".toList (some 'n' :: some 'u' :: some 'l' :: some 'l' :: r) = .ok ((), r) :=
  word_eq ['n', 'u', 'l', 'l'] r

theorem word_true (r : Symbols) :
    word "true".toList (some 't' :: some 'r' :: some 'u' :: some 'e' :: r) = .ok ((), r) :=
  word_eq ['t', 'r', 'u', 'e'] r

theorem word_false (r : Symbols) :
    word "false".toList (some 'f' :: some 'a' :: some 'l' :: some 's' :: some 'e' :: r) =
      .ok ((), r) :=
  word_eq ['f', 'a', 'l', 's', 'e'] r

end

/-! ### Strings -/

theorem hexValue_hexDigit {n : Nat} (small : n < 16) : hexValue? (hexDigit n) = some n := by
  have all : ∀ n < 16, hexValue? (hexDigit n) = some n := by decide
  exact all n small

theorem stringBody_escaped (c : Char) (acc : List Char) (r : Symbols) :
    stringBody acc .plain ((escapedChar c).map some ++ r) = stringBody (c :: acc) .plain r := by
  have short {d x : Char} (apart : d ≠ 'u') (known : shortEscape? d = some x) :
      stringBody acc .plain (some '\\' :: some d :: r) = stringBody (x :: acc) .plain r := by
    simp [stringBody, apart, known]
  unfold escapedChar
  split
  · subst c
    exact short (by decide) rfl
  split
  · subst c
    exact short (by decide) rfl
  split
  · subst c
    exact short (by decide) rfl
  split
  · subst c
    exact short (by decide) rfl
  split
  · subst c
    exact short (by decide) rfl
  split
  · subst c
    exact short (by decide) rfl
  split
  · subst c
    exact short (by decide) rfl
  rename_i quote backslash _ _ _ _ _
  split
  · rename_i control
    have zero : hexValue? '0' = some 0 := by decide
    have high := @hexValue_hexDigit (c.toNat / 16) (by omega)
    have low := @hexValue_hexDigit (c.toNat % 16) (by omega)
    have value : 16 * (c.toNat / 16) + c.toNat % 16 = c.toNat := by omega
    have single : ¬ (0xdc00 ≤ c.toNat ∧ c.toNat ≤ 0xdfff) := by omega
    have alone : ¬ (0xd800 ≤ c.toNat ∧ c.toNat ≤ 0xdbff) := by omega
    simp [stringBody, zero, high, low, value, afterDigits, single, alone, Char.ofNat_toNat]
  · rename_i plain
    simp [stringBody, quote, backslash, plain]

theorem stringBody_text (cs acc : List Char) (r : Symbols) :
    stringBody acc .plain ((cs.flatMap escapedChar).map some ++ some '"' :: r) =
      .ok (String.ofList (acc.reverse ++ cs), r) := by
  induction cs generalizing acc with
  | nil => simp [stringBody]
  | cons c cs ih =>
    rw [List.flatMap_cons, List.map_append, List.append_assoc, stringBody_escaped, ih]
    simp

theorem string_eq (t : String) (r : Symbols) :
    string ((t.toList.flatMap escapedChar).map some ++ some '"' :: r) = .ok (t, r) := by
  simp [string, stringBody_text]

theorem stringChars_symbols (t : String) (r : Symbols) : (stringChars t).map some ++ r =
    some '"' :: ((t.toList.flatMap escapedChar).map some ++ some '"' :: r) := by
  simp [stringChars]

/-! ### Integers -/

theorem digits_eq {ds : List Char} {rest : Symbols} (digits : ∀ c ∈ ds, Text.isDigit c = true)
    (stop : ∀ c, rest.head? = some (some c) → Text.isDigit c = false) :
    Scan.digits (ds.map some ++ rest) = .ok (ds, rest) := by
  have inside : ∀ x ∈ ds.map some, Option.any Text.isDigit x = true := by simpa using digits
  have outside : (rest.takeWhile (Option.any Text.isDigit) = []) ∧
      rest.dropWhile (Option.any Text.isDigit) = rest := by
    cases rest with
    | nil => simp
    | cons x r =>
      cases x with
      | none => simp
      | some c => simp [stop c rfl]
  have kept : (ds.map some).reduceOption = ds := by
    show (ds.map some).filterMap id = ds
    simp
  simp only [Scan.digits, List.takeWhile_append_of_pos inside, List.dropWhile_append_of_pos inside,
    outside, List.append_nil, kept]

theorem closed_stop {rest : Symbols} (closed : Closed rest) (c : Char)
    (next : rest.head? = some (some c)) :
    Text.isDigit c = false ∧ c ≠ '.' ∧ c ≠ 'e' ∧ c ≠ 'E' := by
  have ends := closed _ next
  simp only [Option.some.injEq] at ends
  rcases ends with rfl | rfl | rfl <;> decide

theorem digit_solid {c : Char} (digit : Text.isDigit c = true) : isBlank (some c) = false := by
  rw [Bool.eq_false_iff, Ne, isBlank_iff]
  rintro (rfl | rfl | rfl | rfl) <;> simp [Text.isDigit] at digit

theorem numeral_eq (n : Nat) {rest : Symbols} (closed : Closed rest) :
    numeral ((Nat.toDigits 10 n).map some ++ rest) = .ok (⟨Nat.toDigits 10 n, none, none⟩, rest) := by
  have taken := @digits_eq (Nat.toDigits 10 n) rest (fun c member => isDigit_toDigits member)
    (fun c next => (closed_stop closed c next).1)
  have unpadded : ¬ ((Nat.toDigits 10 n).head? = some '0' ∧ (Nat.toDigits 10 n).length > 1) := by
    rintro ⟨zero, long⟩
    rw [toDigits_head zero, Nat.toDigits_zero] at long
    simp at long
  have next : rest.head?.join ≠ some '.' ∧ rest.head?.join ≠ some 'e' ∧
      rest.head?.join ≠ some 'E' := by
    cases head : rest.head? with
    | none => simp
    | some x =>
      cases x with
      | none => simp
      | some c => simpa [head] using (closed_stop closed c head).2
  simp [numeral, digits1, taken, unpadded, next]

theorem number_natural {n : Nat} (fits : n < UInt64.size) {rest : Symbols} (closed : Closed rest) :
    number ((Nat.toDigits 10 n).map some ++ rest) = .ok (.natural n, rest) := by
  obtain ⟨c, r, split⟩ := List.exists_cons_of_ne_nil (@Nat.toDigits_ne_nil n 10)
  have digit : Text.isDigit c = true := isDigit_toDigits (n := n) (by simp [split])
  have unsigned : c ≠ '-' := by
    rintro rfl
    simp [Text.isDigit] at digit
  have positive : (c == '-') = false := beq_eq_false_iff_ne.mpr unsigned
  have read := numeral_eq n closed
  have value : (Numeral.mk (Nat.toDigits 10 n) none none).value? false = some (.natural n) := by
    simp [Numeral.value?, fits]
  rw [split] at read value ⊢
  simp only [List.map_cons, List.cons_append] at read ⊢
  simp [number, unsigned, positive, read, value]

theorem number_negative {n : Nat} (positive : 0 < n) (fits : n ≤ 1 <<< 63) {rest : Symbols}
    (closed : Closed rest) :
    number (some '-' :: ((Nat.toDigits 10 n).map some ++ rest)) = .ok (.negative (-n), rest) := by
  have small : n < UInt64.size := Nat.lt_of_le_of_lt fits (by decide)
  have value : (Numeral.mk (Nat.toDigits 10 n) none none).value? true = some (.negative (-n)) := by
    simp only [Numeral.value?, natOfDigits_toDigits, Option.isNone_none, small, and_self, ↓reduceIte,
      Bool.not_true, Bool.false_eq_true, positive, fits]
  simp [number, numeral_eq n closed, value]

theorem num_chars (i : Int) : (Json.num i).chars =
    if 0 ≤ i then Nat.toDigits 10 i.toNat else '-' :: Nat.toDigits 10 (-i).toNat := by
  rw [Json.chars, Int.toString_eq_repr, Int.repr_eq_if]
  split <;> simp

theorem integer_eq {α : Type} {expected : String} {narrow? : Int → Option α} {i : Int} {a : α}
    (least : -(1 <<< 63 : Nat) ≤ i) (most : i < UInt64.size) (narrowed : narrow? i = some a)
    {rest : Symbols} (closed : Closed rest) :
    integer expected narrow? ((Json.num i).chars.map some ++ rest) = .ok (a, rest) := by
  rw [num_chars]
  split
  · rename_i natural
    obtain ⟨n, rfl⟩ := Int.eq_ofNat_of_zero_le natural
    have read := number_natural (n := n) (by omega) closed
    obtain ⟨c, r, split⟩ := List.exists_cons_of_ne_nil (@Nat.toDigits_ne_nil n 10)
    have digit : Text.isDigit c = true := isDigit_toDigits (n := n) (by simp [split])
    have solid := digit_solid digit
    rw [Int.toNat_natCast, split]
    rw [split] at read
    simp only [List.map_cons, List.cons_append] at read ⊢
    simp [integer, solid, digit, read, narrowed]
  · rename_i negative
    obtain ⟨n, rfl⟩ : ∃ n : Nat, i = -n := ⟨i.natAbs, by omega⟩
    have read := number_negative (n := n) (by omega) (by omega) closed
    have solid : isBlank (some '-') = false := by decide
    rw [Int.neg_neg, Int.toNat_natCast]
    simp [integer, solid, read, narrowed]

end Scan

end SignedManifest.Json
