import Mathlib.Order.Compare
import Mathlib.Tactic.SplitIfs
import SignedManifest.Text.Lossy

/-!
Texts and their bytes in UTF-8. Reading the bytes of a text gives the text back, character by
character. A character before another one has the smaller encoding, whatever follows either, so
texts compare as their bytes do.
-/
namespace SignedManifest.Text
open PartialChar

def utf8 (s : String) : List UInt8 := s.toUTF8.data.toList

theorem utf8_eq (s : String) : utf8 s = s.toList.flatMap String.utf8EncodeChar := by
  obtain ⟨l, rfl⟩ : ∃ l, s = String.ofList l := ⟨s.toList, by simp⟩
  simp [utf8, String.toUTF8, List.utf8Encode]

theorem utf8_inj {s t : String} : utf8 s = utf8 t ↔ s = t := by
  simp [utf8, String.toUTF8, ByteArray.ext_iff, ← String.toByteArray_inj]

/-! ### Reading bytes back -/

theorem start_one {v : Nat} (most : v < 0x80) : start v = .inl (Char.ofNat v) := by
  rw [start, if_pos most]

theorem start_two {v : Nat} (least : 2 ≤ v) (most : v < 32) :
    start (v + 0xc0) = .inr { value := v, missing := 1 } := by
  rw [start, if_neg (by omega), if_pos (by omega), Nat.add_sub_cancel]

theorem start_three {v : Nat} (most : v < 16) : start (v + 0xe0) = .inr
    { value := v, missing := 2
      least := if v + 0xe0 = 0xe0 then 0xa0 else 0x80
      most := if v + 0xe0 = 0xed then 0x9f else 0xbf } := by
  rw [start, if_neg (by omega), if_neg (by omega), if_pos (by omega), Nat.add_sub_cancel]

theorem start_four {v : Nat} (most : v ≤ 4) : start (v + 0xf0) = .inr
    { value := v, missing := 3
      least := if v + 0xf0 = 0xf0 then 0x90 else 0x80
      most := if v + 0xf0 = 0xf4 then 0x8f else 0xbf } := by
  rw [start, if_neg (by omega), if_neg (by omega), if_neg (by omega), if_pos (by omega),
    Nat.add_sub_cancel]

theorem later_toNat (k : Nat) : (UInt8.ofNat (k % 64 + 128)).toNat = k % 64 + 128 := by
  rw [UInt8.toNat_ofNat']
  omega

section
variable {b : UInt8} {rest : List UInt8} {p : PartialChar} {k v : Nat}

theorem lossyChars_single {c : Char} (begins : start b.toNat = .inl c) :
    lossyChars none (b :: rest) = c :: lossyChars none rest := by
  simp [lossyChars, begins]

theorem lossyChars_start (begins : start b.toNat = .inr p) :
    lossyChars none (b :: rest) = lossyChars (some p) rest := by
  simp [lossyChars, begins]

theorem lossyChars_more (byte : b.toNat = k % 64 + 128) (least : p.least ≤ k % 64 + 128)
    (most : k % 64 + 128 ≤ p.most) (missing : 1 < p.missing) :
    lossyChars (some p) (b :: rest) = lossyChars
      (some { value := 64 * p.value + k % 64, missing := p.missing - 1 }) rest := by
  simp [lossyChars, accepts, extend, byte, least, most, Nat.not_le.mpr missing]

theorem lossyChars_last (byte : b.toNat = k % 64 + 128) (least : p.least ≤ k % 64 + 128)
    (most : k % 64 + 128 ≤ p.most) (missing : p.missing = 1) (value : 64 * p.value + k % 64 = v) :
    lossyChars (some p) (b :: rest) = Char.ofNat v :: lossyChars none rest := by
  simp [lossyChars, accepts, extend, byte, least, most, missing, value]

end

/- The cases are the lengths of the encoding. In each the bounds of the first byte's class hold, and
   the bounds that it sets for the second keep out nothing that a character is encoded to. -/
theorem lossyChars_encodeChar (c : Char) (rest : List UInt8) :
    lossyChars none (String.utf8EncodeChar c ++ rest) = c :: lossyChars none rest := by
  have bound := c.valid
  have whole : Char.ofNat c.val.toNat = c := Char.ofNat_toNat c
  simp only [UInt32.isValidChar, Nat.isValidChar] at bound
  unfold String.utf8EncodeChar
  dsimp only
  generalize c.val.toNat = n at *
  subst whole
  split_ifs with one two three
  · have first : (UInt8.ofNat n).toNat = n := by
      rw [UInt8.toNat_ofNat']
      omega
    exact lossyChars_single (by rw [first, start_one (by omega)])
  · have first : (UInt8.ofNat (n / 64 % 32 + 192)).toNat = n / 64 + 192 := by
      rw [UInt8.toNat_ofNat']
      omega
    simp only [List.cons_append, List.nil_append]
    rw [lossyChars_start (by rw [first, start_two (by omega) (by omega)])]
    exact lossyChars_last (later_toNat _) (by simp) (by dsimp only; omega) rfl (by dsimp only; omega)
  · have first : (UInt8.ofNat (n / 4096 % 16 + 224)).toNat = n / 4096 + 224 := by
      rw [UInt8.toNat_ofNat']
      omega
    simp only [List.cons_append, List.nil_append]
    rw [lossyChars_start (by rw [first, start_three (by omega)]),
      lossyChars_more (later_toNat _) (by dsimp only; split_ifs <;> omega)
        (by dsimp only; split_ifs <;> omega) (by simp)]
    exact lossyChars_last (later_toNat _) (by simp) (by dsimp only; omega) rfl (by dsimp only; omega)
  · have first : (UInt8.ofNat (n / 262144 % 8 + 240)).toNat = n / 262144 + 240 := by
      rw [UInt8.toNat_ofNat']
      omega
    simp only [List.cons_append, List.nil_append]
    rw [lossyChars_start (by rw [first, start_four (by omega)]),
      lossyChars_more (later_toNat _) (by dsimp only; split_ifs <;> omega)
        (by dsimp only; split_ifs <;> omega) (by simp),
      lossyChars_more (later_toNat _) (by simp) (by dsimp only; omega) (by simp)]
    exact lossyChars_last (later_toNat _) (by simp) (by dsimp only; omega) rfl (by dsimp only; omega)

theorem lossyChars_encode (cs : List Char) :
    lossyChars none (cs.flatMap String.utf8EncodeChar) = cs := by
  induction cs with
  | nil => rfl
  | cons c cs ih => rw [List.flatMap_cons, lossyChars_encodeChar, ih]

theorem lossyChars_utf8 (s : String) : lossyChars none (utf8 s) = s.toList := by
  rw [utf8_eq, lossyChars_encode]

/-! ### Order -/

/- The leading byte grows with the number of bytes; among encodings of one length the first byte that
   differs decides. -/
theorem encodeChar_lt {a b : Char} (less : a < b) (p q : List UInt8) :
    String.utf8EncodeChar a ++ p < String.utf8EncodeChar b ++ q := by
  have order : a.val.toNat < b.val.toNat := less
  have boundA := a.valid
  have boundB := b.valid
  simp only [UInt32.isValidChar, Nat.isValidChar] at boundA boundB
  unfold String.utf8EncodeChar
  dsimp only
  generalize a.val.toNat = m at *
  generalize b.val.toNat = n at *
  have later : ∀ k, (k % 64 + 128) % 256 = k % 64 + 128 := fun k => by omega
  have first : ∀ k, (k % 8 + 240) % 256 = k % 8 + 240 := fun k => by omega
  have digits : ∀ k, k < 0x110000 → k / 64 / 64 = k / 4096 ∧ k / 4096 / 64 = k / 262144 ∧
      k / 262144 % 8 = k / 262144 := fun k _ => by omega
  have digitsA := digits m (by omega)
  have digitsB := digits n (by omega)
  split_ifs <;> simp only [List.cons_append, List.nil_append, List.cons_lt_cons_iff,
    UInt8.lt_iff_toNat_lt, ← UInt8.toNat_inj, UInt8.toNat_ofNat', Nat.reducePow, later, first] <;>
    omega

theorem encode_lt {l m : List Char} (less : l < m) :
    l.flatMap String.utf8EncodeChar < m.flatMap String.utf8EncodeChar := by
  induction l generalizing m with
  | nil =>
    cases m with
    | nil => exact absurd less (by simp)
    | cons b m =>
      obtain ⟨x, r, spelled⟩ := List.exists_cons_of_ne_nil (String.utf8EncodeChar_ne_nil (c := b))
      simp [spelled]
  | cons a l ih =>
    cases m with
    | nil => exact absurd less (by simp)
    | cons b m =>
      simp only [List.flatMap_cons]
      rcases List.cons_lt_cons_iff.mp less with first | ⟨rfl, rest⟩
      · exact encodeChar_lt first _ _
      · exact List.append_left_lt (ih rest)

theorem utf8_lt {s t : String} (before : compare s t = .lt) : utf8 s < utf8 t := by
  have less : s < t := compareOfLessAndEq_eq_lt.mp before
  rw [utf8_eq, utf8_eq]
  exact encode_lt (String.lt_iff.mp less)

theorem compare_text {s t : String} : compare s t = .lt ↔ utf8 s < utf8 t := by
  refine ⟨utf8_lt, fun less => ?_⟩
  cases order : compare s t with
  | lt => rfl
  | eq =>
    rw [Std.LawfulEqCmp.eq_of_compare order] at less
    exact absurd less (List.lt_irrefl _)
  | gt => exact absurd less (List.lt_asymm (utf8_lt (Std.OrientedCmp.lt_of_gt order)))

end SignedManifest.Text
