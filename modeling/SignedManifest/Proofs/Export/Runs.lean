import Mathlib.Data.List.Induction
import SignedManifest.Proofs.Export.Writing

/-!
Runs of plans. Whatever becomes of a run, it changes nothing outside the tree that it fills. A run
that succeeds on an empty tree leaves in it exactly the files that were written, each with the
content that was written last.
-/
namespace SignedManifest
open SignedManifest.Path

/-! ### Last elements of their key -/

section
variable {α κ : Type} {key : α → κ} {xs ys : List α} {a : α}

/-- An element that no later one shares its key with. -/
def IsLast (key : α → κ) (l : List α) (a : α) : Prop :=
  ∃ before after, l = before ++ a :: after ∧ ∀ b ∈ after, key b ≠ key a

theorem IsLast.mem (last : IsLast key xs a) : a ∈ xs := by
  obtain ⟨before, after, rfl, _⟩ := last
  simp

theorem isLast_congr {κ' : Type} {key' : α → κ'} (same : ∀ a b, key a = key b ↔ key' a = key' b) :
    IsLast key xs a ↔ IsLast key' xs a := by
  simp only [IsLast, ne_eq, same]

theorem isLast_append :
    IsLast key (xs ++ ys) a ↔
      IsLast key ys a ∨ IsLast key xs a ∧ ∀ b ∈ ys, key b ≠ key a := by
  constructor
  · rintro ⟨before, after, split, apart⟩
    rcases List.append_eq_append_iff.mp split with ⟨more, rfl, rfl⟩ | ⟨more, rfl, rest⟩
    · exact .inl ⟨more, after, rfl, apart⟩
    · cases more with
      | nil =>
        obtain rfl : ys = a :: after := by simpa using rest.symm
        exact .inl ⟨[], after, rfl, apart⟩
      | cons b more =>
        obtain ⟨rfl, rfl⟩ := List.cons.inj rest
        exact .inr ⟨⟨before, more, rfl, fun b member => apart b (List.mem_append_left _ member)⟩,
          fun b member => apart b (List.mem_append_right _ member)⟩
  · rintro (⟨before, after, rfl, apart⟩ | ⟨⟨before, after, rfl, apart⟩, later⟩)
    · exact ⟨xs ++ before, after, by simp, apart⟩
    · refine ⟨before, after ++ ys, by simp, fun b member => ?_⟩
      rcases List.mem_append.mp member with member | member
      · exact apart b member
      · exact later b member

theorem isLast_concat {b : α} :
    IsLast key (xs ++ [b]) a ↔ a = b ∨ key b ≠ key a ∧ IsLast key xs a := by
  rw [isLast_append]
  constructor
  · rintro (alone | ⟨last, apart⟩)
    · exact .inl (by simpa using alone.mem)
    · exact .inr ⟨apart b (by simp), last⟩
  · rintro (rfl | ⟨apart, last⟩)
    · exact .inl ⟨[], [], rfl, by simp⟩
    · exact .inr ⟨last, by simpa using apart⟩

theorem isLast_filter {keep : α → Bool} (byKey : ∀ a b, key a = key b → keep a = keep b) :
    IsLast key (xs.filter keep) a ↔ IsLast key xs a ∧ keep a = true := by
  induction xs using List.reverseRecOn with
  | nil => exact ⟨fun last => by simpa using last.mem, fun last => by simpa using last.1.mem⟩
  | append_singleton xs b ih =>
    rw [List.filter_append, isLast_concat]
    by_cases kept : keep b = true
    · rw [List.filter_cons_of_pos kept, List.filter_nil, isLast_concat, ih]
      constructor
      · rintro (rfl | ⟨apart, last, kept⟩)
        · exact ⟨.inl rfl, kept⟩
        · exact ⟨.inr ⟨apart, last⟩, kept⟩
      · rintro ⟨rfl | ⟨apart, last⟩, kept⟩
        · exact .inl rfl
        · exact .inr ⟨apart, last, kept⟩
    · rw [List.filter_cons_of_neg kept, List.filter_nil, List.append_nil, ih]
      constructor
      · rintro ⟨last, here⟩
        exact ⟨.inr ⟨fun same => kept (byKey b a same ▸ here), last⟩, here⟩
      · rintro ⟨rfl | ⟨_, last⟩, here⟩
        · exact absurd here kept
        · exact ⟨last, here⟩

theorem exists_isLast (member : a ∈ xs) : ∃ b, IsLast key xs b ∧ key b = key a := by
  induction xs generalizing a with
  | nil => cases member
  | cons x xs ih =>
    by_cases later : ∃ b ∈ xs, key b = key a
    · obtain ⟨b, here, same⟩ := later
      obtain ⟨c, last, equal⟩ := ih here
      exact ⟨c, List.singleton_append ▸ isLast_append.mpr (.inl last), equal.trans same⟩
    · obtain rfl | here := List.mem_cons.mp member
      · exact ⟨a, ⟨[], xs, rfl, fun b here same => later ⟨b, here, same⟩⟩, rfl⟩
      · exact absurd ⟨a, here, rfl⟩ later

theorem isLast_of_nodup (nodup : (xs.map key).Nodup) : IsLast key xs a ↔ a ∈ xs := by
  refine ⟨IsLast.mem, fun member => ?_⟩
  obtain ⟨before, after, rfl⟩ := List.append_of_mem member
  refine ⟨before, after, rfl, fun b later same => ?_⟩
  simp only [List.map_append, List.map_cons] at nodup
  have := (List.nodup_cons.mp (List.nodup_append.mp nodup).2.1).1
  exact this (same ▸ List.mem_map_of_mem later)

theorem isLast_map {β κ' : Type} {key' : β → κ'} {f : α → β} {b : β}
    (same : ∀ a c, key' (f a) = key' (f c) ↔ key a = key c) :
    IsLast key' (xs.map f) b ↔ ∃ a, IsLast key xs a ∧ f a = b := by
  constructor
  · rintro ⟨before, after, split, apart⟩
    obtain ⟨front, rest, rfl, _, tail⟩ := List.map_eq_append_iff.mp split
    obtain ⟨a, back, rfl, rfl, rfl⟩ := List.map_eq_cons_iff.mp tail
    refine ⟨a, ⟨front, back, rfl, fun c later equal => ?_⟩, rfl⟩
    exact apart (f c) (List.mem_map_of_mem later) ((same c a).mpr equal)
  · rintro ⟨a, ⟨before, after, rfl, apart⟩, rfl⟩
    refine ⟨before.map f, after.map f, by simp, fun c later equal => ?_⟩
    obtain ⟨d, member, rfl⟩ := List.mem_map.mp later
    exact apart d member ((same d a).mp equal)

end

/-! ### Actions -/

/-- Names that a file below a directory may have. None is that of a sibling. -/
structure IsFilePlace (names : Place) : Prop where
  filled : names ≠ []
  plain : ∀ s ∈ names, IsComponent s
  final : ∀ s, names.getLast? ≠ some (s ++ ".tmp")

namespace Action

def place? : Action → Option Place
  | write names _ => some names
  | copy _ names => some names
  | fail _ => none

def written? : Action → Option (Place × ByteArray)
  | write names content => some (names, content.bytes)
  | copy _ _ => none
  | fail _ => none

def effect? (d : Disk) : Action → Option (Place × ByteArray)
  | write names content => some (names, content.bytes)
  | copy source names => (d.contentText source).toOption.map fun text =>
      (names, (FileContent.text [text]).bytes)
  | fail _ => none

variable {d d' : Disk} {base top : String} {B : Place} {r : Except ExportError Unit}

theorem run_copy {root source : String} {names : Place} {text : String}
    (read : d.contentText source = .ok text) :
    (copy source names).run root d = (write names (.text [text])).run root d := by
  simp only [run, read]

theorem run_write {names : Place} {last : String} {content : FileContent}
    (leads : d.Leads base B) (c : IsComponent top) (place : IsFilePlace (names ++ [last]))
    (ran : (write (names ++ [last]) content).run (join base top) d = (r, d')) :
    d.Exports B (top :: names) last content.bytes (r = .ok ()) d' := by
  have wrote : d.writeExport (pathBelow base (top :: names ++ [last])) content = (r, d') := ran
  have plain : ∀ s ∈ top :: names ++ [last], IsComponent s := by
    intro s member
    rw [List.cons_append, List.mem_cons] at member
    rcases member with rfl | member
    · exact c
    · exact place.plain s member
  exact Disk.writeExport_exports leads plain wrote

theorem run_cases {a : Action} {root : String} (ran : a.run root d = (r, d')) :
    d' = d ∨ ∃ names content, a.place? = some names ∧
      (write names content).run root d = (r, d') := by
  cases a with
  | write names content => exact .inr ⟨names, content, rfl, ran⟩
  | copy source names =>
    cases read : d.contentText source with
    | error e =>
      simp only [run, read] at ran
      cases ran
      exact .inl rfl
    | ok text =>
      rw [run_copy read] at ran
      exact .inr ⟨names, _, rfl, ran⟩
  | fail e =>
    cases ran
    exact .inl rfl

theorem run_ok {a : Action} {root : String} (ran : a.run root d = (.ok (), d')) :
    ∃ names content, a.place? = some names ∧ a.effect? d = some (names, content.bytes) ∧
      (write names content).run root d = (.ok (), d') := by
  cases a with
  | write names content => exact ⟨names, content, rfl, rfl, ran⟩
  | copy source names =>
    cases read : d.contentText source with
    | error e => simp [run, read] at ran
    | ok text =>
      rw [run_copy read] at ran
      exact ⟨names, .text [text], rfl, by simp [effect?, read, Except.toOption], ran⟩
  | fail e => cases ran

theorem run_exports {a : Action} (leads : d.Leads base B) (c : IsComponent top)
    (sound : ∀ names, a.place? = some names → IsFilePlace names)
    (ran : a.run (join base top) d = (r, d')) :
    d' = d ∨ ∃ names last bytes, a.place? = some (names ++ [last]) ∧
      d.Exports B (top :: names) last bytes (r = .ok ()) d' := by
  refine (run_cases ran).imp_right fun ⟨names, content, filled, wrote⟩ => ?_
  have place := sound names filled
  obtain ⟨names, last, rfl⟩ := (List.eq_nil_or_concat' names).resolve_left place.filled
  exact ⟨names, last, content.bytes, filled, run_write leads c place wrote⟩

theorem run_worksIn {a : Action} (leads : d.Leads base B) (c : IsComponent top)
    (sound : ∀ names, a.place? = some names → IsFilePlace names)
    (ran : a.run (join base top) d = (r, d')) : d.WorksIn (B ++ [top]) d' := by
  rcases run_exports leads c sound ran with rfl | ⟨_, _, _, _, exports⟩
  · exact .refl _ _
  · exact exports.worksIn

end Action

/-- The files inside a directory are those of a list of writes, each as it was written last. -/
def Disk.Tree (d : Disk) (T : Place) (ws : List (Place × ByteArray)) : Prop :=
  ∀ names bytes, d.get? (T ++ names) = some (.file bytes) ↔ IsLast Prod.fst ws (names, bytes)

/- The sibling of a file is no file that was written, so that it is gone takes none away. -/
theorem Disk.Tree.write {d d' : Disk} {B : Place} {top last : String} {names : Place}
    {bytes : ByteArray} {ws : List (Place × ByteArray)} {succeeds : Prop}
    (tree : d.Tree (B ++ [top]) ws) (places : ∀ w ∈ ws, IsFilePlace w.1) (success : succeeds)
    (exports : d.Exports B (top :: names) last bytes succeeds d') :
    d'.Tree (B ++ [top]) (ws ++ [(names ++ [last], bytes)]) := by
  intro place held
  have written := exports.written success
  have moved := exports.moved success
  have others := exports.others (B ++ [top] ++ place)
  have before := tree place held
  simp only [List.cons_append, List.append_assoc, List.nil_append, ne_eq,
    List.append_cancel_left_eq, List.cons.injEq, true_and] at written moved others before
  simp only [List.append_assoc, List.cons_append, List.nil_append]
  rw [isLast_concat]
  by_cases here : place = names ++ [last]
  · simp [here, written, eq_comm]
  rw [← before]
  by_cases sibling : place = names ++ [last ++ ".tmp"]
  · have absent : d.get? (B ++ top :: place) ≠ some (.file held) := fun stood => by
      have := (places _ (before.mp stood).mem).final last
      simp [sibling] at this
    rw [← sibling] at moved
    simp [here, absent, moved]
  · rcases others here sibling with same | ⟨free, dir, _⟩
    · simp [same, here, Ne.symm here]
    · simp [free, dir, here]

/-! ### Plans -/

namespace Plan

def Sound (plan : Plan) : Prop := ∀ a ∈ plan, ∀ names, a.place? = some names → IsFilePlace names

def writes (plan : Plan) : List (Place × ByteArray) := plan.filterMap Action.written?

theorem Sound.places {plan : Plan} (sound : plan.Sound) : ∀ w ∈ plan.writes, IsFilePlace w.1 := by
  intro w member
  obtain ⟨a, action, written⟩ := List.mem_filterMap.mp member
  cases a with
  | write names content =>
    cases written
    exact sound _ action names rfl
  | copy source names => cases written
  | fail e => cases written

variable {d d' : Disk} {base top root : String} {B : Place} {r : Except ExportError Unit}

theorem run_singleton (a : Action) : run root d [a] = a.run root d := by
  simp only [run]
  split
  · rename_i same
    exact same.symm
  · rfl

theorem run_append (plan rest : Plan) (root : String) (d : Disk) :
    run root d (plan ++ rest) =
      match run root d plan with
      | (.ok (), d) => run root d rest
      | failed => failed := by
  induction plan generalizing d with
  | nil => rfl
  | cons a plan ih =>
    simp only [List.cons_append, run]
    split
    · exact ih _
    · rename_i failed
      split
      · rename_i same
        exact absurd same (failed _)
      · rfl

theorem run_append_ok {plan rest : Plan} :
    run root d (plan ++ rest) = (.ok (), d') ↔
      ∃ e, run root d plan = (.ok (), e) ∧ run root e rest = (.ok (), d') := by
  rw [run_append]
  rcases run root d plan with ⟨_ | ⟨⟩, e⟩ <;> simp

theorem run_worksIn {plan : Plan} (leads : d.Leads base B) (c : IsComponent top)
    (sound : plan.Sound) (ran : plan.run (join base top) d = (r, d')) :
    d.WorksIn (B ++ [top]) d' := by
  induction plan generalizing d with
  | nil =>
    cases ran
    exact .refl _ _
  | cons a rest ih =>
    have first := fun names => sound a (by simp) names
    simp only [run] at ran
    split at ran
    · rename_i e done
      have works := Action.run_worksIn leads c first done
      exact works.trans (ih (leads.kept works.keeps)
        (fun b member => sound b (List.mem_cons_of_mem _ member)) ran)
    · exact Action.run_worksIn leads c first ran

def effects (root : String) (d : Disk) : Plan → List (Place × ByteArray)
  | [] => []
  | a :: rest => (a.effect? d).toList ++ effects root (a.run root d).2 rest

/- What every write that succeeds keeps up with, a run that goes through keeps up with. The induction is
   on the plan; `ws` are the writes before it. -/
theorem run_preserves {plan : Plan} {ws : List (Place × ByteArray)}
    {P : Disk → List (Place × ByteArray) → Prop}
    (step : ∀ d d' ws names last bytes (succeeds : Prop), P d ws → IsFilePlace (names ++ [last]) →
      succeeds → d.Exports B (top :: names) last bytes succeeds d' →
      P d' (ws ++ [(names ++ [last], bytes)]))
    (leads : d.Leads base B) (c : IsComponent top) (sound : plan.Sound)
    (ran : plan.run (join base top) d = (.ok (), d')) (holds : P d ws) :
    P d' (ws ++ plan.effects (join base top) d) := by
  induction plan generalizing d ws with
  | nil =>
    cases ran
    simpa [effects] using holds
  | cons a rest ih =>
    simp only [run] at ran
    split at ran
    · rename_i e done
      have works := Action.run_worksIn leads c (fun names => sound a (by simp) names) done
      have later : Sound rest := fun b member => sound b (List.mem_cons_of_mem _ member)
      obtain ⟨names, content, filled, effect, wrote⟩ := Action.run_ok done
      have place := sound a (by simp) names filled
      obtain ⟨names, last, rfl⟩ := (List.eq_nil_or_concat' names).resolve_left place.filled
      have next := step _ _ _ _ _ _ _ holds place rfl (Action.run_write leads c place wrote)
      simpa [effects, effect, done] using ih (leads.kept works.keeps) later ran next
    · rename_i failed
      exact absurd ran (failed _)

theorem run_effects {plan : Plan} {ws : List (Place × ByteArray)} (leads : d.Leads base B)
    (c : IsComponent top) (sound : plan.Sound) (ran : plan.run (join base top) d = (.ok (), d'))
    (tree : d.Tree (B ++ [top]) ws) (places : ∀ w ∈ ws, IsFilePlace w.1) :
    d'.Tree (B ++ [top]) (ws ++ plan.effects (join base top) d) ∧
      ∀ w ∈ ws ++ plan.effects (join base top) d, IsFilePlace w.1 := by
  refine run_preserves (P := fun d ws => d.Tree (B ++ [top]) ws ∧ ∀ w ∈ ws, IsFilePlace w.1)
    (fun _ _ ws names last bytes _ holds place success exports => ?_) leads c sound ran ⟨tree, places⟩
  refine ⟨holds.1.write holds.2 success exports, fun w member => ?_⟩
  rcases List.mem_append.mp member with member | member
  · exact holds.2 w member
  · rw [List.mem_singleton.mp member]
    exact place

theorem effects_direct {plan : Plan} (direct : ∀ a ∈ plan, ∀ s n, a ≠ .copy s n) :
    plan.effects root d = plan.writes := by
  induction plan generalizing d with
  | nil => rfl
  | cons a rest ih =>
    have others := ih (d := (a.run root d).2) fun b member => direct b (List.mem_cons_of_mem _ member)
    cases a with
    | write names content =>
      rw [effects, others]
      rfl
    | copy source names => exact absurd rfl (direct _ (by simp) source names)
    | fail e =>
      rw [effects, others]
      rfl

theorem run_tree {plan : Plan} {ws : List (Place × ByteArray)} (leads : d.Leads base B)
    (c : IsComponent top) (sound : plan.Sound) (direct : ∀ a ∈ plan, ∀ s n, a ≠ .copy s n)
    (ran : plan.run (join base top) d = (.ok (), d')) (tree : d.Tree (B ++ [top]) ws)
    (places : ∀ w ∈ ws, IsFilePlace w.1) : d'.Tree (B ++ [top]) (ws ++ plan.writes) := by
  rw [← @effects_direct d (join base top) _ direct]
  exact (run_effects leads c sound ran tree places).1

end Plan

end SignedManifest
