import SignedManifest.Moment
import SignedManifest.Proofs.Json.Layouts
import SignedManifest.Proofs.Text.Digits

/-!
Points in time and their texts. A moment is read back from the text that it is written as, whatever
its year and however exact it is.
-/
namespace SignedManifest
open Text

theorem digit_bounds {c : Char} (digit : isDigit c = true) : 48 ≤ c.toNat ∧ c.toNat ≤ 57 := by
  simpa [isDigit, Char.le_def, UInt32.le_iff_toNat_le] using digit

theorem digit_not_blank {c : Char} (digit : isDigit c = true) : isBlank c = false := by
  have := digit_bounds digit
  simp [isBlank]
  omega

theorem digit_ne {c sign : Char} (digit : isDigit c = true) (other : isDigit sign = false) :
    c ≠ sign := by
  rintro rfl
  simp_all

theorem dropWhile_solid {c : Char} (solid : isBlank c = false) (r : List Char) :
    (c :: r).dropWhile isBlank = c :: r := by
  simp [solid]

namespace Moment

/-! ### Parts -/

theorem number?_digits {ds : List Char} (some_digit : ds ≠ []) (digits : ∀ c ∈ ds, isDigit c = true)
    (rest : List Char) : number? ds.length (ds ++ rest) = some (natOfDigits ds, rest) := by
  have start : (ds ++ rest).dropWhile isBlank = ds ++ rest := by
    obtain ⟨c, r, rfl⟩ := List.exists_cons_of_ne_nil some_digit
    exact dropWhile_solid (digit_not_blank (digits c (by simp))) (r ++ rest)
  have all : ds.takeWhile isDigit = ds := by
    simpa using @takeWhile_digits ds [] digits (by simp)
  simp [number?, start, all, some_digit]

theorem number?_padded {width n : Nat} (room : 0 < width) (fits : n < Nat.pow 10 width) (rest : List Char) :
    number? width ((padded width n).toList ++ rest) = some (n, rest) := by
  have read := number?_digits (padded_ne_nil width n) (fun c => isDigit_padded) rest
  rwa [padded_length room fits, natOfDigits_padded] at read

theorem number?_two {n : Nat} (fits : n < 100) (rest : List Char) :
    number? 2 ((padded 2 n).toList ++ rest) = some (n, rest) :=
  number?_padded (by decide) (by omega) rest

theorem mark?_eq {c : Char} (solid : isBlank c = false) (r : List Char) :
    mark? c (c :: r) = some r := by
  simp [mark?, solid]

theorem year?_signed {ds : List Char} (some_digit : ds ≠ []) (digits : ∀ c ∈ ds, isDigit c = true)
    (r : List Char) :
    year? ('-' :: (ds ++ '-' :: r)) = some (-(natOfDigits ds : Int), '-' :: r) ∧
      year? ('+' :: (ds ++ '-' :: r)) = some ((natOfDigits ds : Int), '-' :: r) := by
  have all : (ds ++ '-' :: r).takeWhile isDigit = ds :=
    takeWhile_digits digits (by simp; decide)
  constructor
  · simp [year?, dropWhile_solid (show isBlank '-' = false by decide), all, some_digit]
  · simp [year?, dropWhile_solid (show isBlank '+' = false by decide), all, some_digit]

theorem year?_plain {ds : List Char} (some_digit : ds ≠ []) (digits : ∀ c ∈ ds, isDigit c = true)
    (r : List Char) : year? (ds ++ r) = (number? 4 (ds ++ r)).map fun (n, r) => ((n : Int), r) := by
  obtain ⟨c, t, rfl⟩ := List.exists_cons_of_ne_nil some_digit
  have digit := digits c (by simp)
  have minus := @digit_ne c '-' digit (by decide)
  have plus := @digit_ne c '+' digit (by decide)
  simp only [year?, List.cons_append, dropWhile_solid (digit_not_blank digit)]
  split
  · simp_all
  · simp_all
  · rfl

theorem year?_text (year : Int) (r : List Char) :
    year? ((Day.yearText year).toList ++ '-' :: r) = some (year, '-' :: r) := by
  have plain (n : Nat) := @year?_plain (padded 4 n).toList (padded_ne_nil 4 n) (fun c => isDigit_padded)
  have signed (n : Nat) :=
    @year?_signed (padded 4 n).toList (padded_ne_nil 4 n) (fun c => isDigit_padded) r
  have minus : "-".toList = ['-'] := rfl
  have plus : "+".toList = ['+'] := rfl
  unfold Day.yearText
  split
  · rename_i short
    have fits : year.toNat < 10000 := by omega
    rw [plain, number?_padded (by decide) fits]
    simp only [Option.map_some, Int.toNat_of_nonneg short.1]
  · split
    · rw [String.toList_append, minus, List.append_assoc, List.singleton_append, (signed _).1,
        natOfDigits_padded, show -(year.natAbs : Int) = year by omega]
    · rw [String.toList_append, plus, List.append_assoc, List.singleton_append, (signed _).2,
        natOfDigits_padded, show (year.natAbs : Int) = year by omega]

theorem fraction?_digits {width n : Nat} (room : 0 < width) (small : width ≤ 9)
    (fits : n < Nat.pow 10 width) {rest : List Char}
    (stop : ∀ c, rest.head? = some c → isDigit c = false) :
    fraction? ('.' :: ((padded width n).toList ++ rest)) = some (n * Nat.pow 10 (9 - width), rest) := by
  have all : ((padded width n).toList ++ rest).takeWhile isDigit = (padded width n).toList :=
    takeWhile_digits (fun c => isDigit_padded) stop
  have size := padded_length room fits
  have kept : (padded width n).toList.take 9 = (padded width n).toList :=
    List.take_of_length_le (by omega)
  have left : ((padded width n).toList ++ rest).drop width = rest := List.drop_left' size
  simp only [fraction?, all, kept, size, natOfDigits_padded, left]
  rw [if_neg (by simpa using padded_ne_nil width n)]

theorem fraction?_text {nanos : Nat} (fits : nanos < 1000000000) (r : List Char) :
    fraction? ((fractionText nanos).toList ++ 'Z' :: r) = some (nanos, 'Z' :: r) := by
  have stop : ∀ c, ('Z' :: r).head? = some c → isDigit c = false := by
    rintro c h
    cases h
    decide
  have point : ".".toList = ['.'] := rfl
  unfold fractionText
  split
  · rename_i none
    subst none
    simp [fraction?]
  · split
    · have three : nanos / 1000000 < 1000 := by omega
      rw [String.toList_append, point, List.append_assoc, List.singleton_append,
        fraction?_digits (by decide) (by decide) three stop]
      simp
      omega
    · split
      · have six : nanos / 1000 < 1000000 := by omega
        rw [String.toList_append, point, List.append_assoc, List.singleton_append,
          fraction?_digits (by decide) (by decide) six stop]
        simp
        omega
      · rw [String.toList_append, point, List.append_assoc, List.singleton_append,
          fraction?_digits (by decide) (by decide) fits stop]
        simp

theorem ofLocal?_utc (m : Moment) :
    ofLocal? m.day m.hour m.minute m.second m.nanos 0 = some m := by
  obtain ⟨day, hour, minute, second, nanos, valid⟩ := m
  have early : ¬ ((60 * hour + minute - 0 : Int) < 0) := by omega
  have late : (60 * hour + minute - 0 : Int) < 1440 := by omega
  have hours : ((60 * hour + minute - 0 : Int) % 1440).toNat / 60 = hour := by omega
  have minutes : ((60 * hour + minute - 0 : Int) % 1440).toNat % 60 = minute := by omega
  simp only [ofLocal?, if_neg early, if_pos late, hours, minutes]
  simp [valid]

theorem day_of?_parts (d : Day) : Day.of? d.year d.month d.day = some d := by
  simp [Day.of?, d.valid]

theorem day_bound (d : Day) : d.day < 100 := by
  have := d.valid
  have month : daysInMonth d.year d.month ≤ 31 := by
    unfold daysInMonth
    split
    · split <;> omega
    · split <;> omega
  omega

theorem bind_of_some {α β : Type} {o : Option α} {a : α} {f : α → Option β} {b : β}
    (first : o = some a) (rest : f a = some b) : (o >>= f) = some b := by
  rw [first]
  exact rest

/- A moment is read back from its text. -/
theorem parse_text (m : Moment) : parse m.text = some m := by
  have month := m.day.valid
  have day := day_bound m.day
  have clock := m.valid
  have written : m.text.toList = (Day.yearText m.day.year).toList ++ '-' ::
      ((padded 2 m.day.month).toList ++ '-' :: ((padded 2 m.day.day).toList ++ 'T' ::
      ((padded 2 m.hour).toList ++ ':' :: ((padded 2 m.minute).toList ++ ':' ::
      ((padded 2 m.second).toList ++ ((fractionText m.nanos).toList ++ ['Z'])))))) := by
    simp [text, Day.text]
  have dash (r : List Char) := @mark?_eq '-' (by decide) r
  have colon (r : List Char) := @mark?_eq ':' (by decide) r
  have utc : offset? (['Z'].dropWhile isBlank) = some (0, []) := by decide
  rw [parse, written]
  refine bind_of_some (year?_text _ _) ?_
  refine bind_of_some (dash _) (bind_of_some (number?_two (by omega) _) ?_)
  refine bind_of_some (dash _) (bind_of_some (number?_two day _) ?_)
  refine (if_pos (.inl rfl)).trans (bind_of_some rfl ?_)
  refine bind_of_some (number?_two (by omega) _) ?_
  refine bind_of_some (colon _) (bind_of_some (number?_two (by omega) _) ?_)
  refine bind_of_some (colon _) (bind_of_some (number?_two (by omega) _) ?_)
  refine bind_of_some (fraction?_text clock.2.2.2 []) (bind_of_some utc ?_)
  refine (if_pos ⟨rfl, clock.1, clock.2.1, clock.2.2.1⟩).trans ?_
  exact bind_of_some (day_of?_parts m.day) (ofLocal?_utc m)

/-! ### As JSON -/

theorem codec_faithful (d : Nat) : codec.Faithful d := by
  intro m form arranges rest closed
  have read := Json.Codec.takes_textAs "an RFC 3339 formatted date and time string" m.text d
    form arranges rest closed
  have flat : (Json.str m.text).depth ≤ d := Nat.zero_le d
  rw [if_pos flat] at read
  rw [if_pos (show (codec.write m).depth ≤ d from flat)]
  rw [codec]
  simp only [Json.Scan.bind_eq, read]
  rw [parse_text]
  rfl

theorem codec_filled : codec.Filled := by
  intro m
  simp [codec]

end Moment
end SignedManifest
