import Mathlib.Data.List.Basic
import SignedManifest.Zip.Reader

/-!
Bytes at positions of a file. What a writer put at a position a reader finds there: the numbers of a
record one after the other, and whatever follows them.
-/
namespace SignedManifest.Zip

def At (b : ByteArray) (i : Nat) (l : List UInt8) : Prop :=
  ∃ before after, b.data.toList = before ++ (l ++ after) ∧ before.length = i

variable {b : ByteArray} {i n w : Nat} {l m : List UInt8}

theorem At.left (stands : At b i (l ++ m)) : At b i l := by
  obtain ⟨before, after, split, here⟩ := stands
  exact ⟨before, m ++ after, by simpa using split, here⟩

theorem At.right (stands : At b i (l ++ m)) : At b (i + l.length) m := by
  obtain ⟨before, after, split, here⟩ := stands
  exact ⟨before ++ l, after, by simpa using split, by simp [here]⟩

theorem At.inside (stands : At b i l) : i + l.length ≤ b.size := by
  obtain ⟨before, after, split, rfl⟩ := stands
  have size := congrArg List.length split
  simp only [List.length_append, Array.length_toList, ByteArray.size_data] at size
  omega

theorem getElem?_data (b : ByteArray) (i : Nat) : b[i]? = b.data.toList[i]? := by
  by_cases bound : i < b.size
  · rw [getElem?_pos b i bound, ByteArray.getElem_eq_getElem_data, ← Array.getElem_toList,
      List.getElem?_eq_getElem]
  · rw [getElem?_neg b i bound, List.getElem?_eq_none]
    simpa using bound

theorem At.head {x : UInt8} (stands : At b i (x :: l)) : b[i]? = some x := by
  obtain ⟨before, after, split, rfl⟩ := stands
  rw [getElem?_data, split]
  simp

def capacity (width : Nat) : Nat := Nat.pow 256 width

theorem At.number (stands : At b i (little n w)) : numberAt? b i w = some (n % capacity w) := by
  induction w generalizing i n with
  | zero => simp [numberAt?, capacity, Nat.mod_one]
  | succ w ih =>
    have low := stands.head
    have high := ih (stands.right (l := [_]))
    simp only [List.length_singleton] at high
    simp only [numberAt?, low, high, Option.bind_eq_bind, Option.bind_some, Option.pure_def,
      UInt8.toNat_ofNat', Nat.reducePow, Option.some.injEq]
    rw [capacity, capacity, Nat.pow_eq, Nat.pow_eq, Nat.pow_succ', Nat.mod_mul]

theorem At.extract (stands : At b i l) : b.extract i (i + l.length) = ⟨l.toArray⟩ := by
  obtain ⟨before, after, split, rfl⟩ := stands
  refine ByteArray.ext (Array.toList_inj.mp ?_)
  simp [ByteArray.data_extract, split, List.extract_eq_take_drop]

theorem At.slice (stands : At b i l) : slice? b i l.length = some ⟨l.toArray⟩ := by
  rw [slice?, if_pos stands.inside, stands.extract]

/-! ### Records of numbers -/

theorem little_length (n w : Nat) : (little n w).length = w := by
  induction w generalizing n with
  | zero => rfl
  | succ w ih => simp [little, ih]

def fieldBytes (fields : List (Nat × Nat)) : List UInt8 :=
  fields.flatMap fun (width, n) => little n width

def extent : List (Nat × Nat) → Nat
  | [] => 0
  | (width, _) :: fields => width + extent fields

theorem fieldBytes_length (fields : List (Nat × Nat)) :
    (fieldBytes fields).length = extent fields := by
  induction fields with
  | nil => rfl
  | cons field fields ih =>
    rw [fieldBytes, List.flatMap_cons, List.length_append, little_length, extent, ← ih]
    rfl

theorem bytesOf_data (fields : List (Nat × Nat)) :
    (bytesOf fields).data.toList = fieldBytes fields := by
  simp [bytesOf, fieldBytes]

theorem bytesOf_size (fields : List (Nat × Nat)) : (bytesOf fields).size = extent fields := by
  rw [← ByteArray.size_data, ← Array.length_toList, bytesOf_data, fieldBytes_length]

theorem fieldBytes_append (l m : List (Nat × Nat)) : fieldBytes (l ++ m) = fieldBytes l ++ fieldBytes m :=
  List.flatMap_append

def Reads (b : ByteArray) : Nat → List (Nat × Nat) → Prop
  | _, [] => True
  | i, (w, n) :: fields => numberAt? b i w = some (n % capacity w) ∧ Reads b (i + w) fields

theorem At.reads {fields : List (Nat × Nat)} (stands : At b i (fieldBytes fields)) :
    Reads b i fields := by
  induction fields generalizing i with
  | nil => trivial
  | cons field fields ih =>
    obtain ⟨w, n⟩ := field
    rw [fieldBytes, List.flatMap_cons] at stands
    have behind := stands.right
    rw [little_length] at behind
    exact ⟨stands.left.number, ih behind⟩

end SignedManifest.Zip
