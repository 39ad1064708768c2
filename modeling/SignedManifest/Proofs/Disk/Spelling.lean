import Mathlib.Data.List.Basic
import Mathlib.Data.List.TakeWhile
import Mathlib.Tactic.Common
import SignedManifest.Disk.Basic

/-!
What the text of a path says of the way it leads. A path joined to another takes the other's steps
first and its own after them, and the path above takes the first of the steps. A component is one
step, whatever else is in it.
-/
namespace SignedManifest.Path

/-- One name on the way of a path. -/
structure IsComponent (s : String) : Prop where
  filled : s ≠ ""
  here : s ≠ "."
  above : s ≠ ".."
  whole : '/' ∉ s.toList

/- Whatever is more than dots and has no slash is a component. -/
theorem isComponent_of_mem {s : String} {x : Char} (member : x ∈ s.toList) (other : x ≠ '.')
    (whole : '/' ∉ s.toList) : IsComponent s := by
  refine ⟨?_, ?_, ?_, whole⟩
  all_goals
    rintro rfl
    simp [other] at member

theorem splitChars_ne_nil (l : List Char) : splitChars l ≠ [] := by
  cases l with
  | nil => simp [splitChars]
  | cons c r =>
    simp only [splitChars]
    split
    · simp
    · split <;> simp

theorem splitChars_append (a b : List Char) :
    splitChars (a ++ '/' :: b) = splitChars a ++ splitChars b := by
  induction a with
  | nil => simp [splitChars]
  | cons c r ih =>
    by_cases slash : c = '/'
    · simp [splitChars, slash, ih]
    · cases split : splitChars r with
      | nil => exact absurd split (splitChars_ne_nil r)
      | cons s t => simp [splitChars, slash, ih, split]

theorem splitChars_whole {l : List Char} (whole : '/' ∉ l) : splitChars l = [l] := by
  induction l with
  | nil => rfl
  | cons c r ih =>
    simp only [List.mem_cons, not_or] at whole
    simp [splitChars, Ne.symm whole.1, ih whole.2]

theorem splitChars_parts {l s : List Char} (member : s ∈ splitChars l) : '/' ∉ s := by
  induction l generalizing s with
  | nil => simp_all [splitChars]
  | cons c r ih =>
    by_cases slash : c = '/'
    · simp only [splitChars, slash, ↓reduceIte, List.mem_cons] at member
      rcases member with rfl | member
      · simp
      · exact ih member
    · cases split : splitChars r with
      | nil => exact absurd split (splitChars_ne_nil r)
      | cons t u =>
        simp only [splitChars, slash, ↓reduceIte, split, List.mem_cons] at member
        rcases member with rfl | member
        · have := ih (s := t) (by simp [split])
          simp [Ne.symm slash, this]
        · exact ih (by simp [split, member])

theorem segments_ne_nil (path : String) : segments path ≠ [] := by
  simp [segments, splitChars_ne_nil]

theorem segments_slash (a b : String) : segments (a ++ "/" ++ b) = segments a ++ segments b := by
  have chars : (a ++ "/" ++ b).toList = a.toList ++ '/' :: b.toList := by simp
  rw [segments, chars, splitChars_append, List.map_append]
  rfl

theorem segments_closed (a : String) : segments (a ++ "/") = segments a ++ [""] := by
  have parts := segments_slash a ""
  rw [String.append_empty] at parts
  exact parts

theorem segments_whole {s : String} (whole : '/' ∉ s.toList) : segments s = [s] := by
  simp [segments, splitChars_whole whole]

theorem segments_parts {path s : String} (member : s ∈ segments path) : '/' ∉ s.toList := by
  obtain ⟨l, part, rfl⟩ := List.mem_map.mp member
  simpa using splitChars_parts part

theorem segments_intercalate {l : List String} (filled : l ≠ [])
    (parts : ∀ s ∈ l, '/' ∉ s.toList) : segments ("/".intercalate l) = l := by
  induction l with
  | nil => exact absurd rfl filled
  | cons s r ih =>
    have whole := segments_whole (parts s (by simp))
    cases r with
    | nil => simpa using whole
    | cons t u =>
      rw [String.intercalate_cons_cons, segments_slash, whole, ih (by simp)
        fun x member => parts x (List.mem_cons_of_mem _ member)]
      rfl

theorem isAbsolute_iff {path first : String} {rest : List String}
    (parts : segments path = first :: rest) :
    isAbsolute path = true ↔ first = "" ∧ rest ≠ [] := by
  simp only [segments] at parts
  simp only [isAbsolute]
  cases chars : path.toList with
  | nil =>
    rw [chars] at parts
    simp_all [splitChars]
  | cons c r =>
    rw [chars] at parts
    cases split : splitChars r with
    | nil => exact absurd split (splitChars_ne_nil r)
    | cons s t =>
      by_cases slash : c = '/'
      · simp only [splitChars, slash, ↓reduceIte, split, List.map_cons, List.cons.injEq] at parts
        obtain ⟨rfl, rfl⟩ := parts
        simp [slash]
      · simp only [splitChars, slash, ↓reduceIte, split, List.map_cons, List.cons.injEq] at parts
        obtain ⟨rfl, rfl⟩ := parts
        simp [slash, ← String.toList_eq_nil_iff]

/-! ### Joining -/

theorem join_eq {base path : String} (relative : isAbsolute path = false) (filled : base ≠ "") :
    ∃ b, join base path = b ++ "/" ++ path ∧ (base = b ∨ base = b ++ "/") := by
  by_cases closed : base.toList.getLast? = some '/'
  · obtain ⟨l, chars⟩ := List.getLast?_eq_some_iff.mp closed
    have spelled : base = String.ofList l ++ "/" := String.toList_inj.mp (by simp [chars])
    exact ⟨String.ofList l, by simp [join, relative, closed, ← spelled], .inr spelled⟩
  · exact ⟨base, by simp [join, relative, closed, filled], .inl rfl⟩

theorem isAbsolute_join (base : String) {path : String} (relative : isAbsolute path = false) :
    isAbsolute (join base path) = isAbsolute base := by
  by_cases filled : base = ""
  · simpa [join, relative, filled, isAbsolute] using relative
  · obtain ⟨b, joined, rfl | rfl⟩ := join_eq relative filled
    · cases chars : base.toList with
      | nil => exact absurd (String.toList_eq_nil_iff.mp chars) filled
      | cons c r => simp [joined, isAbsolute, chars]
    · cases chars : b.toList <;> simp [joined, isAbsolute, chars]

theorem isAbsolute_component {s : String} (c : IsComponent s) : isAbsolute s = false := by
  simp only [isAbsolute, beq_eq_false_iff_ne]
  intro first
  exact c.whole (List.mem_of_mem_head? first)

theorem join_front (base : String) : ∃ front, ∀ s, IsComponent s → join base s = front ++ s := by
  by_cases bare : base = "" ∨ base.toList.getLast? = some '/'
  · exact ⟨base, fun s c => by simp [join, isAbsolute_component c, bare]⟩
  · exact ⟨base ++ "/", fun s c => by simp [join, isAbsolute_component c, bare]⟩

theorem segments_append (a : String) {b : String} (whole : '/' ∉ b.toList) :
    ∃ before s, segments a = before ++ [s] ∧ segments (a ++ b) = before ++ [s ++ b] := by
  suffices chars : ∀ l : List Char, ∃ before s, splitChars l = before ++ [s] ∧
      splitChars (l ++ b.toList) = before ++ [s ++ b.toList] by
    obtain ⟨before, s, parts, split⟩ := chars a.toList
    exact ⟨before.map String.ofList, String.ofList s, by simp [segments, parts],
      by simp [segments, split]⟩
  intro l
  induction l with
  | nil => exact ⟨[], [], rfl, by simp [splitChars_whole whole]⟩
  | cons c r ih =>
    obtain ⟨before, s, parts, split⟩ := ih
    by_cases slash : c = '/'
    · exact ⟨[] :: before, s, by simp [splitChars, slash, parts], by simp [splitChars, slash, split]⟩
    · cases before with
      | nil => exact ⟨[], c :: s, by simp [splitChars, slash, parts], by simp [splitChars, slash, split]⟩
      | cons first before =>
        exact ⟨(c :: first) :: before, s, by simp [splitChars, slash, parts],
          by simp [splitChars, slash, split]⟩

theorem segments_join (base path : String) :
    ∃ before, segments (join base path) = before ++ segments path := by
  by_cases alone : isAbsolute path = true ∨ base = ""
  · refine ⟨[], ?_⟩
    rcases alone with absolute | rfl
    · simp [join, absolute]
    · simp [join]
  · simp only [not_or, Bool.not_eq_true] at alone
    obtain ⟨b, joined, _⟩ := join_eq alone.1 alone.2
    exact ⟨segments b, by rw [joined, segments_slash]⟩

/-! ### Components -/

theorem components_of_segments {path first : String} {rest : List String}
    (parts : segments path = first :: rest) : components path =
      if first = "." then (false, "." :: rest.filter fun s => s ≠ "" ∧ s ≠ ".")
      else (isAbsolute path, (first :: rest).filter fun s => s ≠ "" ∧ s ≠ ".") := by
  unfold components
  rw [parts]
  split
  · rename_i dotted
    obtain ⟨rfl, rfl⟩ := List.cons.inj dotted
    rfl
  · rename_i plain
    rw [if_neg (by rintro rfl; exact plain rest rfl)]

theorem components_component {s : String} (c : IsComponent s) : components s = (false, [s]) := by
  rw [components_of_segments (segments_whole c.whole), if_neg c.here, isAbsolute_component c]
  simp [c.filled, c.here]

theorem components_join (base : String) {s : String} (c : IsComponent s) :
    components (join base s) = ((components base).1, (components base).2 ++ [s]) := by
  by_cases filled : base = ""
  · have alone : join base s = s := by simp [join, isAbsolute_component c, filled]
    rw [alone, components_component c, filled]
    rfl
  obtain ⟨b, joined, spelled⟩ := join_eq (isAbsolute_component c) filled
  have absolute := isAbsolute_join base (isAbsolute_component c)
  obtain ⟨first, rest, parts⟩ := List.exists_cons_of_ne_nil (segments_ne_nil b)
  have whole : segments (join base s) = first :: (rest ++ [s]) := by
    rw [joined, segments_slash, parts, segments_whole c.whole, List.cons_append]
  -- what stands between the base and the component is blank
  obtain ⟨blanks, before, blank⟩ : ∃ blanks, segments base = first :: (rest ++ blanks) ∧
      blanks.filter (fun t => t ≠ "" ∧ t ≠ ".") = [] := by
    rcases spelled with rfl | rfl
    · exact ⟨[], by simpa using parts, rfl⟩
    · exact ⟨[""], by rw [segments_closed, parts, List.cons_append], by simp⟩
  have named : [s].filter (fun t => t ≠ "" ∧ t ≠ ".") = [s] := by simp [c.filled, c.here]
  rw [components_of_segments whole, components_of_segments before, absolute]
  split
  · simp only [List.filter_append, blank, named, List.append_nil, List.cons_append]
  · simp only [← List.cons_append, List.filter_append, blank, named, List.append_nil]

/- Taking a name apart and comparing what is found with it comes to looking for separators and dots. -/
theorem isPlainName_iff {s : String} : isPlainName s = true ↔
    s ≠ "" ∧ s ≠ "." ∧ s ≠ ".." ∧ '/' ∉ s.toList ∧ '\\' ∉ s.toList := by
  have clean : (!s.toList.any fun c => c == '/' || c == '\\') = true ↔
      '/' ∉ s.toList ∧ '\\' ∉ s.toList := by
    simp [← Bool.not_eq_true, and_or_left, exists_or]
  rw [isPlainName, Bool.and_eq_true, clean, beq_iff_eq]
  constructor
  · rintro ⟨only, clean⟩
    unfold onlyName? at only
    split at only
    · rename_i t alone
      split at only
      · cases only
      · rename_i plain
        cases only
        refine ⟨?_, fun here => plain (.inl here), fun above => plain (.inr above), clean⟩
        rintro rfl
        cases alone
    · cases only
  · rintro ⟨filled, here, above, clean⟩
    refine ⟨?_, clean⟩
    rw [onlyName?, components_component ⟨filled, here, above, clean.1⟩]
    simp [here, above]

theorem isComponent_of_plain {s : String} (plain : isPlainName s = true) : IsComponent s := by
  obtain ⟨filled, here, above, whole, _⟩ := isPlainName_iff.mp plain
  exact ⟨filled, here, above, whole⟩

/-! ### The path above -/

theorem dropBlankEnd_start (l : List String) : dropBlankEnd l <+: l := by
  cases l with
  | nil => exact List.prefix_rfl
  | cons s r =>
    refine List.prefix_cons_inj s |>.mpr ?_
    have := List.dropWhile_suffix (l := r.reverse) fun s => s == "" || s == "."
    simpa using List.reverse_prefix.mpr this

theorem dropBlankEnd_append (l : List String) :
    ∃ blanks, l = dropBlankEnd l ++ blanks ∧ ∀ b ∈ blanks, b = "" ∨ b = "." := by
  cases l with
  | nil => exact ⟨[], rfl, by simp⟩
  | cons s r =>
    refine ⟨(r.reverse.takeWhile fun s => s == "" || s == ".").reverse, ?_, fun b member => ?_⟩
    · simp [dropBlankEnd, ← List.reverse_append]
    · simpa using List.mem_takeWhile_imp (List.mem_reverse.mp member)

theorem dropBlankEnd_cons (s : String) (r : List String) :
    ∃ t, dropBlankEnd (s :: r) = s :: t := ⟨_, rfl⟩

theorem dropBlankEnd_closed {before : List String} {last : String} (c : IsComponent last) :
    dropBlankEnd (before ++ [last]) = before ++ [last] := by
  cases before with
  | nil => rfl
  | cons s r => simp [dropBlankEnd, c.filled, c.here]

theorem fileName?_join (base : String) {s : String} (c : IsComponent s) :
    fileName? (join base s) = some s := by
  obtain ⟨before, parts⟩ := segments_join base s
  rw [segments_whole c.whole] at parts
  have last : (dropBlankEnd (segments (join base s))).getLast? = some s := by
    rw [parts, dropBlankEnd_closed c, List.getLast?_concat]
  simp [fileName?, last, c.filled, c.here, c.above]

end SignedManifest.Path

namespace SignedManifest.Disk
open SignedManifest.Path

theorem stepsOf_join (base : String) {path : String} (relative : isAbsolute path = false) :
    stepsOf (join base path) = ((stepsOf base).1 ++ (stepsOf path).1, (stepsOf path).2) := by
  by_cases filled : base = ""
  · simp [stepsOf, join, relative, filled, segments, splitChars]
  · obtain ⟨b, joined, spelled⟩ := join_eq relative filled
    have same : (segments base).filter (· ≠ "") = (segments b).filter (· ≠ "") := by
      rcases spelled with rfl | rfl
      · rfl
      · simp [segments_closed]
    simp only [stepsOf, joined, segments_slash, List.filter_append, same, Prod.mk.injEq, true_and]
    rw [List.getLast?_append_of_ne_nil _ (segments_ne_nil path)]

theorem stepsOf_component {s : String} (c : IsComponent s) : stepsOf s = ([s], false) := by
  simp [stepsOf, segments_whole c.whole, c.filled]

theorem start_join (d : Disk) (base : String) {path : String}
    (relative : isAbsolute path = false) : d.start (join base path) = d.start base := by
  simp only [start, isAbsolute_join base relative]

theorem firstParts_steps {path first : String} {t : List String} (kept : first :: t <+: segments path)
    (filled : first = "" → t ≠ []) : isAbsolute ("/".intercalate (first :: t)) = isAbsolute path ∧
      (stepsOf ("/".intercalate (first :: t))).1 <+: (stepsOf path).1 := by
  have spelled : segments ("/".intercalate (first :: t)) = first :: t :=
    segments_intercalate (by simp) fun s member => segments_parts (kept.mem member)
  constructor
  · obtain ⟨rest, split⟩ := kept
    rw [Bool.eq_iff_iff, isAbsolute_iff split.symm, isAbsolute_iff spelled]
    refine ⟨fun ⟨blank, more⟩ => ⟨blank, by simp [more]⟩, fun ⟨blank, _⟩ => ⟨blank, filled blank⟩⟩
  · simp only [stepsOf, spelled]
    exact kept.filter _

theorem parent?_steps {path above : String} (found : parent? path = some above) :
    isAbsolute above = isAbsolute path ∧ (stepsOf above).1 <+: (stepsOf path).1 := by
  obtain ⟨first, rest, parts⟩ := List.exists_cons_of_ne_nil (segments_ne_nil path)
  obtain ⟨trimmed, trim⟩ := dropBlankEnd_cons first rest
  have shorter : first :: trimmed <+: first :: rest := trim ▸ dropBlankEnd_start _
  have absolute := isAbsolute_iff parts
  simp only [parent?, parts, trim] at found
  split at found
  · cases found
  · cases found
  · rename_i named single
    obtain ⟨rfl, rfl⟩ := List.cons.inj single
    cases found
    have relative : isAbsolute path = false := by
      rw [Bool.eq_false_iff]
      exact fun abs => named (absolute.mp abs).1
    exact ⟨by simpa [isAbsolute] using relative.symm, by simp [stepsOf, segments, splitChars]⟩
  · rename_i several
    have more : trimmed ≠ [] := fun none => several first (by rw [none])
    have deep : rest ≠ [] := by
      rintro rfl
      exact more (List.prefix_nil.mp (List.prefix_cons_inj first |>.mp shorter))
    obtain ⟨t, cut⟩ := dropBlankEnd_cons first trimmed.dropLast
    have kept : first :: t <+: segments path := by
      rw [parts, ← cut]
      refine (dropBlankEnd_start _).trans ?_
      exact List.prefix_cons_inj first |>.mpr ((List.dropLast_prefix _).trans
        (List.prefix_cons_inj first |>.mp shorter))
    rw [List.dropLast_cons_of_ne_nil more, cut] at found
    split at found
    · rename_i blank
      obtain ⟨rfl, rfl⟩ := List.cons.inj blank
      cases found
      refine ⟨?_, by simp [stepsOf, segments, splitChars]⟩
      rw [absolute.mpr ⟨rfl, deep⟩]
      rfl
    · rename_i more_than
      obtain rfl := Option.some.inj found
      refine firstParts_steps kept ?_
      rintro rfl rfl
      exact more_than rfl

theorem fileName?_steps {path s : String} (named : fileName? path = some s) :
    IsComponent s ∧ ∃ before dots, (stepsOf path).1 = before ++ s :: dots ∧ ∀ t ∈ dots, t = "." := by
  obtain ⟨blanks, split, blank⟩ := dropBlankEnd_append (segments path)
  have kept := dropBlankEnd_start (segments path)
  unfold fileName? at named
  split at named
  · rename_i last ends
    split at named
    · cases named
    rename_i plain
    cases named
    simp only [not_or] at plain
    obtain ⟨before, parts⟩ := List.getLast?_eq_some_iff.mp ends
    refine ⟨⟨plain.1, plain.2.1, plain.2.2, segments_parts (kept.mem (List.mem_of_getLast? ends))⟩,
      before.filter (· ≠ ""), blanks.filter (· ≠ ""), ?_, fun t member => ?_⟩
    · rw [stepsOf, split, parts]
      simp [plain.1]
    · obtain ⟨member, filled⟩ := List.mem_filter.mp member
      exact (blank t member).resolve_left (by simpa using filled)
  · cases named

end SignedManifest.Disk
