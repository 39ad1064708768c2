import SignedManifest.Proofs.Disk.Operations
import SignedManifest.Proofs.Key.Signing

/-!
Key files. Keys written in the distinguished encoding, in base64 and between their boundary lines are
read back from there, public ones just if signatures can be checked with them.
-/
namespace SignedManifest

/-! ### Base64 -/

namespace Base64

def digit (n : Nat) : Char := alphabet.getD n '='

def encode : List UInt8 → List Char
  | [] => []
  | [a] => [digit (a.toNat / 4), digit (a.toNat % 4 * 16), '=', '=']
  | [a, b] => [digit (a.toNat / 4), digit (a.toNat % 4 * 16 + b.toNat / 16), digit (b.toNat % 16 * 4), '=']
  | a :: b :: c :: rest =>
    digit (a.toNat / 4) :: digit (a.toNat % 4 * 16 + b.toNat / 16) ::
      digit (b.toNat % 16 * 4 + c.toNat / 64) :: digit (c.toNat % 64) :: encode rest

def IsInner (c : Char) : Prop := c ≠ '\n' ∧ c ≠ '\r'

instance : DecidablePred IsInner := fun _ => inferInstanceAs (Decidable (_ ∧ _))

theorem digit_read : ∀ n : Fin 64, value? (digit n) = some n.val ∧ digit n ≠ '=' ∧ IsInner (digit n) := by
  decide +kernel

theorem value?_digit {n : Nat} (six : n < 64) : value? (digit n) = some n := (digit_read ⟨n, six⟩).1

theorem digit_ne {n : Nat} (six : n < 64) : digit n ≠ '=' := (digit_read ⟨n, six⟩).2.1

theorem digit_inner {n : Nat} (six : n < 64) : IsInner (digit n) := (digit_read ⟨n, six⟩).2.2

theorem byte_eq {b : UInt8} {n : Nat} (same : n = b.toNat) : byte n = b := by
  rw [byte, same, UInt8.ofNat_toNat]

/- The cases are the groups of the encoding. -/
theorem decode?_encode (bytes : List UInt8) : decode? (encode bytes) = some bytes := by
  fun_induction encode bytes with
  | case1 => rfl
  | case2 a =>
    have bound := a.toNat_lt
    simp only [decode?, value?_digit (show a.toNat / 4 < 64 by omega),
      value?_digit (show a.toNat % 4 * 16 < 64 by omega), Option.bind_eq_bind, Option.bind_some]
    rw [if_pos (by omega), byte_eq (b := a) (by omega)]
  | case3 a b =>
    have bound := a.toNat_lt
    have bound' := b.toNat_lt
    have third : b.toNat % 16 * 4 < 64 := by omega
    rw [decode?.eq_3 _ _ _ (fun same => digit_ne third same)]
    simp only [value?_digit (show a.toNat / 4 < 64 by omega), value?_digit third,
      value?_digit (show a.toNat % 4 * 16 + b.toNat / 16 < 64 by omega), Option.bind_eq_bind, Option.bind_some]
    rw [if_pos (by omega), byte_eq (b := a) (by omega), byte_eq (b := b) (by omega)]
  | case4 a b c rest ih =>
    have bound := a.toNat_lt
    have bound' := b.toNat_lt
    have bound'' := c.toNat_lt
    have fourth : c.toNat % 64 < 64 := by omega
    rw [decode?.eq_4 _ _ _ _ _ (fun _ same _ => digit_ne fourth same) (fun same _ => digit_ne fourth same)]
    simp only [value?_digit (show a.toNat / 4 < 64 by omega), value?_digit fourth,
      value?_digit (show a.toNat % 4 * 16 + b.toNat / 16 < 64 by omega),
      value?_digit (show b.toNat % 16 * 4 + c.toNat / 64 < 64 by omega), ih, Option.bind_eq_bind,
      Option.bind_some, Option.pure_def]
    rw [byte_eq (b := a) (by omega), byte_eq (b := b) (by omega), byte_eq (b := c) (by omega)]

theorem encode_inner (bytes : List UInt8) : ∀ c ∈ encode bytes, IsInner c := by
  have filling : IsInner '=' := by decide
  fun_induction encode bytes with
  | case1 => simp
  | case2 a =>
    have bound := a.toNat_lt
    simp only [List.forall_mem_cons, List.not_mem_nil, false_implies, implies_true, and_true]
    exact ⟨digit_inner (by omega), digit_inner (by omega), filling, filling⟩
  | case3 a b =>
    have bound := a.toNat_lt
    have bound' := b.toNat_lt
    simp only [List.forall_mem_cons, List.not_mem_nil, false_implies, implies_true, and_true]
    exact ⟨digit_inner (by omega), digit_inner (by omega), digit_inner (by omega), filling⟩
  | case4 a b c rest ih =>
    have bound := a.toNat_lt
    have bound' := b.toNat_lt
    have bound'' := c.toNat_lt
    simp only [List.forall_mem_cons]
    exact ⟨digit_inner (by omega), digit_inner (by omega), digit_inner (by omega), digit_inner (by omega), ih⟩

end Base64

/-! ### Armor -/

namespace Armor

def wrap (text : List Char) : List Char :=
  if text.drop width = [] then text else text.take width ++ '\n' :: wrap (text.drop width)
termination_by text.length
decreasing_by
  rename_i more
  have long : 0 < (text.drop width).length := List.length_pos_iff.mpr more
  rw [List.length_drop] at long ⊢
  have positive : 0 < width := by decide
  omega

def encode (label : String) (bytes : List UInt8) : List Char :=
  opening ++ (label.toList ++ dashes ++ '\n' :: (wrap (Base64.encode bytes) ++ '\n' ::
    (closing ++ label.toList ++ dashes ++ ['\n'])))

def Unbroken (text : List Char) : Prop := ∀ c, text.getLast? = some c → Base64.IsInner c

theorem beforeBreak?_unbroken {text : List Char} (unbroken : Unbroken text) :
    beforeBreak? text = none := by
  rw [Unbroken, List.getLast?_eq_head?_reverse] at unbroken
  unfold beforeBreak?
  split
  · rename_i same
    exact absurd rfl (unbroken '\n' (by rw [same]; rfl)).1
  · rename_i same
    exact absurd rfl (unbroken '\n' (by rw [same]; rfl)).1
  · rename_i same
    exact absurd rfl (unbroken '\r' (by rw [same]; rfl)).2
  · rfl

theorem beforeBreak?_line {text : List Char} (unbroken : Unbroken text) :
    beforeBreak? (text ++ ['\n']) = some text := by
  rw [Unbroken, List.getLast?_eq_head?_reverse] at unbroken
  rw [beforeBreak?, List.reverse_append, List.reverse_singleton, List.singleton_append]
  cases last : text.reverse with
  | nil =>
    rw [List.reverse_eq_nil_iff.mp last]
    rfl
  | cons c r =>
    have inner := unbroken c (by rw [last]; rfl)
    have whole : (c :: r).reverse = text := by rw [← last, List.reverse_reverse]
    split
    · rename_i same
      obtain ⟨rfl, _⟩ := List.cons.inj (List.cons.inj same).2
      exact absurd rfl inner.2
    · rename_i same
      rw [← (List.cons.inj same).2, whole]
    · rename_i same
      exact absurd (List.cons.inj same).1 (by decide)
    · rename_i _ none _
      exact absurd rfl (none _)

theorem after?_append (word text : List Char) : after? word (word ++ text) = some text := by
  induction word with
  | nil => rfl
  | cons c word ih => simpa [after?] using ih

theorem before?_append (text word : List Char) : before? word (text ++ word) = some text := by
  rw [before?, List.reverse_append, after?_append, Option.map_some, List.reverse_reverse]

theorem wrap_ne_nil {text : List Char} (filled : text ≠ []) : wrap text ≠ [] := by
  rw [wrap]
  split <;> simp [filled]

theorem mem_of_getLast?_wrap {text : List Char} : ∀ c, (wrap text).getLast? = some c → c ∈ text := by
  fun_induction wrap text with
  | case1 => exact fun c last => List.mem_of_getLast? last
  | case2 text more ih =>
    intro c last
    obtain ⟨d, ends⟩ := List.getLast?_isSome.mpr (wrap_ne_nil more) |> Option.isSome_iff_exists.mp
    rw [List.getLast?_append, List.getLast?_cons, ends, Option.getD_some, Option.some_or] at last
    cases last
    exact List.mem_of_mem_drop (ih c ends)

theorem wrap_unbroken {text : List Char} (inner : ∀ c ∈ text, Base64.IsInner c) : Unbroken (wrap text) :=
  fun c last => inner c (mem_of_getLast?_wrap c last)

/- The fuel is enough, as every line has a character. -/
theorem joinLines?_wrap {text : List Char} (inner : ∀ c ∈ text, Base64.IsInner c) {n : Nat}
    (fuel : (wrap text).length < n) : joinLines? n (wrap text) = some text := by
  induction n generalizing text with
  | zero => exact absurd fuel (Nat.not_lt_zero _)
  | succ n ih =>
    by_cases short : text.drop width = []
    · have last : Unbroken text := fun c ends => inner c (List.mem_of_getLast? ends)
      rw [wrap, if_pos short, joinLines?]
      simp only [short, ↓reduceIte, beforeBreak?_unbroken last, Option.getD_none]
    · have full : (text.take width).length = width := by
        have more := List.length_pos_iff.mpr short
        rw [List.length_drop] at more
        rw [List.length_take]
        omega
      rw [wrap, if_neg short, List.length_append, List.length_cons] at fuel
      have rest := ih (fun c member => inner c (List.mem_of_mem_drop member))
        (show (wrap (text.drop width)).length < n by omega)
      rw [wrap, if_neg short, joinLines?]
      simp only [List.take_left' full, List.drop_left' full, afterBreak?, rest, reduceCtorEq, ↓reduceIte,
        Option.bind_eq_bind, Option.bind_some, Option.pure_def, List.take_append_drop]

theorem skipPreamble?_opening (text : List Char) : skipPreamble? (opening ++ text) = some text := by
  rw [skipPreamble?, after?_append, Option.some_or]

theorem body?_encode (label : String) (bytes : List UInt8) :
    body? label (encode label bytes) = some (wrap (Base64.encode bytes)) := by
  have lines := wrap_unbroken (Base64.encode_inner bytes)
  have dashed (l : List Char) : Unbroken (l ++ dashes) := by
    intro c ends
    have last : dashes.getLast? = some '-' := by decide
    rw [List.getLast?_append, last, Option.some_or] at ends
    cases ends
    decide
  have closed : beforeBreak? (wrap (Base64.encode bytes) ++ '\n' ::
      (closing ++ label.toList ++ dashes ++ ['\n'])) =
        some (wrap (Base64.encode bytes) ++ ['\n'] ++ (closing ++ label.toList ++ dashes)) := by
    have whole := beforeBreak?_line (dashed (wrap (Base64.encode bytes) ++ '\n' :: (closing ++ label.toList)))
    simpa using whole
  rw [body?, encode, skipPreamble?_opening]
  simp only [Option.bind_eq_bind, Option.bind_some, after?_append, afterBreak?, closed, Option.getD_some,
    before?_append, beforeBreak?_line lines]

theorem decode?_encode (label : String) (bytes : List UInt8) :
    decode? label (String.ofList (encode label bytes)) = some bytes := by
  rw [decode?, String.toList_ofList, body?_encode]
  simp only [Option.bind_eq_bind, Option.bind_some, joinLines?_wrap (Base64.encode_inner bytes)
    (Nat.lt_succ_self _), Base64.decode?_encode]

theorem decode?_other {label other : String} {c d : Char} {l m : List Char} (begins : label.toList = c :: l)
    (begins' : other.toList = d :: m) (apart : d ≠ c) (bytes : List UInt8) :
    decode? other (String.ofList (encode label bytes)) = none := by
  rw [decode?, String.toList_ofList, body?, encode, skipPreamble?_opening]
  simp [begins, begins', after?, apart]

end Armor

/-! ### Distinguished encoding -/

namespace Der

theorem bytesOfNat_first {n : Nat} (filled : n ≠ 0) :
    256 ^ ((bytesOfNat n).length - 1) ≤ n ∧ ∃ b r, bytesOfNat n = b :: r ∧ b ≠ 0 := by
  induction n using Nat.strongRecOn with
  | ind n ih =>
    rw [bytesOfNat_filled filled]
    by_cases small : n / 256 = 0
    · rw [small, bytesOfNat_zero]
      refine ⟨by simp; omega, _, _, rfl, fun zero => ?_⟩
      have value := congrArg UInt8.toNat zero
      rw [UInt8.toNat_ofNat'] at value
      simp only [UInt8.toNat_zero] at value
      omega
    · obtain ⟨bound, b, r, spelled, first⟩ := ih (n / 256) (by omega) small
      rw [spelled] at bound ⊢
      refine ⟨?_, b, r ++ [UInt8.ofNat n], rfl, first⟩
      simp only [List.length_append, List.length_cons, List.length_nil, Nat.add_sub_cancel] at bound ⊢
      rw [Nat.pow_succ]
      omega

theorem length_le_value (tag : UInt8) (content : List UInt8) :
    content.length ≤ (value tag content).length := by
  simp only [value, List.length_append, List.length_cons]
  omega

namespace Parse
variable {α β : Type} {p : Parse α} {f : α → Parse β} {bytes r content : List UInt8} {a : α} {b : β}
  {tag : UInt8} {n : Nat}

/-- A reader takes some bytes, whatever follows them, and answers. -/
def Reads (p : Parse α) (bytes : List UInt8) (a : α) : Prop := ∀ rest, p (bytes ++ rest) = some (a, rest)

theorem reads_pure (a : α) : Reads (pure a) [] a := fun _ => rfl

theorem Reads.bind (reads : Reads p bytes a) (next : Reads (f a) r b) :
    Reads (p >>= f) (bytes ++ r) b := by
  intro rest
  have first : (p >>= f) (bytes ++ r ++ rest) = f a (r ++ rest) := by
    rw [List.append_assoc]
    change (p (bytes ++ (r ++ rest))).bind (fun x => f x.1 x.2) = f a (r ++ rest)
    rw [reads]
    rfl
  rw [first, next]

theorem Reads.bind_pure (reads : Reads p bytes a) (next : Reads (f a) [] b) : Reads (p >>= f) bytes b := by
  simpa using reads.bind next

theorem reads_take (bytes : List UInt8) : Reads (take bytes.length) bytes bytes := by
  intro rest
  simp [take]

theorem reads_byte (b : UInt8) : Reads byte [b] b := fun _ => rfl

theorem Reads.run? (reads : Reads p bytes a) : p.run? bytes = some a := by
  have whole := reads []
  rw [List.append_nil] at whole
  rw [Parse.run?, whole]

theorem reads_length (fits : n ≤ lengthLimit) : Reads length (lengthBytes n) n := by
  unfold lengthBytes length
  split
  · rename_i small
    have first : (UInt8.ofNat n).toNat = n := by
      rw [UInt8.toNat_ofNat']
      omega
    refine (reads_byte _).bind_pure ?_
    simp only [first, small, ↓reduceIte]
    exact reads_pure n
  · rename_i large
    obtain ⟨bound, b, r, spelled, _⟩ := bytesOfNat_first (n := n) (by omega)
    have most : (bytesOfNat n).length ≤ 4 := length_bytesOfNat_le (by simp only [lengthLimit] at fits; omega)
    have least : 0 < (bytesOfNat n).length := by simp [spelled]
    have first : (UInt8.ofNat (0x80 + (bytesOfNat n).length)).toNat = 0x80 + (bytesOfNat n).length := by
      rw [UInt8.toNat_ofNat']
      omega
    have shortest : if (bytesOfNat n).length = 1 then 0x80 ≤ n
        else 1 <<< (8 * ((bytesOfNat n).length - 1)) ≤ n := by
      split
      · omega
      · rwa [Nat.shiftLeft_eq, Nat.one_mul, Nat.pow_mul]
    refine (reads_byte _).bind (r := bytesOfNat n) ?_
    simp only [first, Nat.add_sub_cancel_left]
    rw [if_neg (by omega), if_neg (by omega)]
    refine (reads_take _).bind_pure ?_
    rw [natOfBytes_bytesOfNat, if_pos ⟨shortest, fits⟩]
    exact reads_pure n

theorem reads_content (fits : content.length ≤ lengthLimit) :
    Reads (Parse.content tag) (value tag content) content := by
  refine (reads_byte tag).bind (r := lengthBytes content.length ++ content) ?_
  rw [if_pos rfl]
  exact (reads_length fits).bind (reads_take content)

theorem reads_within (body : Reads p bytes a) : Reads (within bytes p) [] a := by
  intro rest
  have whole := body []
  rw [List.append_nil] at whole
  rw [List.nil_append, within, whole]
  rfl

theorem reads_sequence (fits : content.length ≤ lengthLimit) (body : Reads p content a) :
    Reads (sequence p) (value sequenceTag content) a :=
  (reads_content fits).bind_pure (reads_within body)

/- The leading zero is there just where the first bit is set. -/
theorem reads_unsigned (fits : (unsignedBytes n).length ≤ lengthLimit) :
    Reads unsigned (unsignedBytes n) n := by
  unfold unsignedBytes at fits ⊢
  refine (reads_content (Nat.le_trans (length_le_value _ _) fits)).bind_pure ?_
  by_cases none : n = 0
  · rw [none, bytesOfNat_zero]
    exact reads_pure 0
  obtain ⟨_, b, r, spelled, first⟩ := bytesOfNat_first none
  have back : natOfBytes (b :: r) = n := by rw [← spelled, natOfBytes_bytesOfNat]
  rw [spelled]
  by_cases low : b < 0x80
  · cases r with
    | nil =>
      rw [natOfBytes, List.foldl_cons, List.foldl_nil, Nat.mul_zero, Nat.zero_add] at back
      simp only [low, ↓reduceIte, back]
      exact reads_pure n
    | cons c r =>
      simp only [low, first, false_and, not_false_eq_true, and_self, ↓reduceIte, back]
      exact reads_pure n
  · have zeroed := natOfBytes_zeros 1 (b :: r)
    rw [List.replicate_one, List.singleton_append, back] at zeroed
    have clear : (0 : UInt8) < 0x80 := by decide
    simp only [low, clear, and_false, not_false_eq_true, and_self, ↓reduceIte, zeroed]
    exact reads_pure n

end Parse

end Der

/-! ### Keys -/

namespace Rsa
open Der Parse Disk

variable {α : Type} {n : Nat} {ns : List Nat} {f : Nat → Parse α} {a : α}

def numbers (ns : List Nat) : List UInt8 := ns.flatMap unsignedBytes

theorem reads_number (next : (numbers ns).length ≤ lengthLimit → Reads (f n) (numbers ns) a)
    (fits : (numbers (n :: ns)).length ≤ lengthLimit) : Reads (unsigned >>= f) (numbers (n :: ns)) a := by
  rw [numbers, List.flatMap_cons] at fits ⊢
  have both := fits
  rw [List.length_append] at both
  exact (reads_unsigned (by omega)).bind (next (by rw [numbers]; omega))

theorem sequenceOf_pair (xs ys : List UInt8) : sequenceOf [xs, ys] = value sequenceTag (xs ++ ys) := by
  simp [sequenceOf]

theorem reads_algorithm :
    Reads algorithm (sequenceOf [value objectTag algorithmName, value nullTag []]) () := by
  have name : algorithmName.length ≤ lengthLimit := by decide
  have whole : (value objectTag algorithmName ++ value nullTag []).length ≤ lengthLimit := by decide +kernel
  rw [sequenceOf_pair]
  refine reads_sequence whole ((reads_content name).bind ?_)
  simp only [ne_eq, not_true_eq_false, ↓reduceIte]
  refine (reads_content (Nat.zero_le _)).bind_pure ?_
  exact reads_pure ()

namespace PublicKey
variable {k : PublicKey}

theorem reads_parse (short : (value sequenceTag (numbers [k.modulus, k.exponent])).length ≤ lengthLimit) :
    Reads PublicKey.parse (value sequenceTag (numbers [k.modulus, k.exponent])) k := by
  have fits := Nat.le_trans (length_le_value _ _) short
  exact reads_sequence fits (reads_number (reads_number fun _ => reads_pure k) fits)

theorem envelope_eq (k : PublicKey) : k.envelope = value sequenceTag
    (sequenceOf [value objectTag algorithmName, value nullTag []] ++
      value bitStringTag (0 :: value sequenceTag (numbers [k.modulus, k.exponent]))) := by
  simp [envelope, sequenceOf, numbers]

theorem reads_envelope (short : k.envelope.length ≤ lengthLimit) : Reads ofEnvelope k.envelope k := by
  rw [envelope_eq] at short ⊢
  have fits := Nat.le_trans (length_le_value _ _) short
  have both := fits
  rw [List.length_append] at both
  have inner := length_le_value bitStringTag (0 :: value sequenceTag (numbers [k.modulus, k.exponent]))
  have key := both
  rw [List.length_cons] at inner
  refine reads_sequence fits
    (reads_algorithm.bind ((reads_content (by rw [List.length_cons]; omega)).bind_pure ?_))
  simp only [↓reduceIte]
  exact reads_within (reads_parse (by omega))

end PublicKey

namespace PrivateKey
variable {k : PrivateKey}

def document (k : PrivateKey) (hints : Nat × Nat × Nat) : List UInt8 :=
  value sequenceTag (numbers [0, k.modulus, k.exponent, k.privateExponent, k.prime1, k.prime2, hints.1,
    hints.2.1, hints.2.2])

theorem reads_document {hints : Nat × Nat × Nat} (short : (k.document hints).length ≤ lengthLimit) :
    Reads PrivateKey.parse (k.document hints) k := by
  have fits := Nat.le_trans (length_le_value _ _) short
  refine reads_sequence fits (reads_number (fun fits => ?_) fits)
  simp only [ne_eq, not_true_eq_false, ↓reduceIte]
  refine reads_number (reads_number (reads_number (reads_number (reads_number ?_)))) fits
  exact reads_number (reads_number (reads_number fun _ => reads_pure k))

end PrivateKey

/-! ### Key files -/

def PublicKey.text (k : PublicKey) : String := String.ofList (Armor.encode "PUBLIC KEY" k.envelope)

def PrivateKey.text (k : PrivateKey) (hints : Nat × Nat × Nat) : String :=
  String.ofList (Armor.encode "RSA PRIVATE KEY" (k.document hints))

/- A public key that is written down is read back just if signatures can be checked with it. -/
theorem PublicKey.ofText?_text {k : PublicKey} (short : k.envelope.length ≤ lengthLimit) :
    PublicKey.ofText? k.text = if k.isUsable then some k else none := by
  have other : Armor.decode? "RSA PUBLIC KEY" k.text = none :=
    Armor.decode?_other (c := 'P') (d := 'R') rfl rfl (by decide) _
  have body : Armor.decode? "PUBLIC KEY" k.text = some k.envelope := Armor.decode?_encode _ _
  simp only [PublicKey.ofText?, body, other, (reads_envelope short).run?, Option.bind_eq_bind, Option.bind_some,
    Option.bind_none, Option.or_none]
  rfl

theorem PrivateKey.ofText?_text {k : PrivateKey} {hints : Nat × Nat × Nat}
    (short : (k.document hints).length ≤ lengthLimit) :
    PrivateKey.ofText? (k.text hints) = if k.isConsistent then some k else none := by
  have other : Armor.decode? "PRIVATE KEY" (k.text hints) = none :=
    Armor.decode?_other (c := 'R') (d := 'P') rfl rfl (by decide) _
  have body : Armor.decode? "RSA PRIVATE KEY" (k.text hints) = some (k.document hints) :=
    Armor.decode?_encode _ _
  simp only [PrivateKey.ofText?, body, other, (reads_document short).run?, Option.bind_eq_bind, Option.bind_some,
    Option.bind_none, Option.none_or]
  rfl

variable {d : Disk} {path : String}

theorem PrivateKey.load_text {k : PrivateKey} {hints : Nat × Nat × Nat}
    (held : d.content path = .ok (k.text hints).toUTF8) (short : (k.document hints).length ≤ lengthLimit)
    (consistent : k.isConsistent = true) : PrivateKey.load path d = .ok k := by
  rw [PrivateKey.load, contentText_ok held]
  simp only [PrivateKey.parseText, ofText?_text short, consistent, ↓reduceIte]

theorem PublicKey.load_text {k : PublicKey} (held : d.content path = .ok k.text.toUTF8)
    (short : k.envelope.length ≤ lengthLimit) : PublicKey.load path d =
      if k.isUsable then .ok k else .error (.key "invalid RSA public key: malformed key") := by
  rw [PublicKey.load, contentText_ok held]
  simp only [PublicKey.parseText, ofText?_text short]
  cases k.isUsable <;> rfl

/- Of a key that signs, the public half is good for checking unless it is too long. -/
theorem PrivateKey.isUsable_of_consistent {k : PrivateKey} (consistent : k.isConsistent = true) :
    k.toPublicKey.isUsable = true ↔ k.modulus < 1 <<< modulusBits := by
  simp only [PrivateKey.isConsistent, Bool.and_eq_true] at consistent
  simp [PublicKey.isUsable, consistent]

end Rsa

end SignedManifest
