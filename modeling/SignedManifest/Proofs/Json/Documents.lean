import SignedManifest.Proofs.Json.Taking

/-!
Whole texts. A reader that takes a value at the limit of nesting decodes the bytes of its text, with
the members of objects in the order of declaration or sorted by key.
-/
namespace SignedManifest

theorem Symbols.ofBytes_toUTF8 (s : String) : Symbols.ofBytes s.toUTF8 = Symbols.ofString s := by
  have back : String.fromUTF8? s.toUTF8 = some s := dif_pos s.isValidUTF8
  rw [ofBytes, back]

namespace Json
open Scan

variable {α : Type} {c : Codec α} {j : Json} {a : α}

theorem Reader.Takes.run {r : Reader α} (takes : r.Takes depthLimit j a) {form : Json → Json}
    (arranges : Arranges form) : r.run ((form j).chars.map some) =
      if j.depth ≤ depthLimit then .ok a else .error .malformed := by
  have read := takes form arranges [] Closed.nil
  rw [List.append_nil] at read
  by_cases fit : j.depth ≤ depthLimit
  · simp only [Reader.run, StateT.run, bind_eq, read, if_pos fit]
    rfl
  · simp only [Reader.run, StateT.run, bind_eq, read, if_neg fit]
    rfl

theorem Reader.Takes.decode (takes : c.read.Takes depthLimit j a) {form : Json → Json}
    (arranges : Arranges form) : c.decode (form j).text.toUTF8 =
      if j.depth ≤ depthLimit then .ok a else .error .malformed := by
  have text : Symbols.ofString (form j).text = (form j).chars.map some := by
    simp [Symbols.ofString, Json.text]
  rw [Codec.decode, Symbols.ofBytes_toUTF8, text, takes.run arranges]

/-- The compact text of a value decodes to `a`, and so does the text with sorted keys. -/
def Codec.Decodes (c : Codec α) (j : Json) (a : α) : Prop :=
  c.decode j.text.toUTF8 = .ok a ∧ c.decode j.sorted.text.toUTF8 = .ok a

def Codec.Refuses (c : Codec α) (j : Json) : Prop :=
  c.decode j.text.toUTF8 = .error .malformed ∧ c.decode j.sorted.text.toUTF8 = .error .malformed

theorem Reader.Takes.decodes (takes : c.read.Takes depthLimit j a) (fit : j.depth ≤ depthLimit) :
    c.Decodes j a := by
  have plain := takes.decode arranges_id
  have ordered := takes.decode arranges_sorted
  rw [if_pos fit] at plain ordered
  exact ⟨plain, ordered⟩

theorem Reader.Takes.refuses (takes : c.read.Takes depthLimit j a) (deep : depthLimit < j.depth) :
    c.Refuses j := by
  have plain := takes.decode arranges_id
  have ordered := takes.decode arranges_sorted
  rw [if_neg (Nat.not_le.mpr deep)] at plain ordered
  exact ⟨plain, ordered⟩

end Json
end SignedManifest
