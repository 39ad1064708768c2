import SignedManifest.Proofs.Export.Admitting
import SignedManifest.Proofs.Export.Trees

/-!
Plans that come to the same. While a tree is filled nothing is in the way of its next file, so a plan runs
through exactly if it does not give up and all its files are admitted. Two plans that write the same last
then either both run through, and to the same disk, or both fail.
-/
namespace SignedManifest
open SignedManifest.Path

namespace Disk
variable {d e : Disk} {base top last : String} {B names : Place} {ws : List (Place × ByteArray)}

/-! ### Equal disks -/

theorem root_preserved (n : Option Node) : Preserved fun d => d.nodes.get? [] = n where
  make holds made := by
    obtain ⟨dir, name, _, _, rfl⟩ := makeDir_ok made
    simpa [put, SortedMap.get?_insert] using holds
  create holds made := by
    obtain ⟨dir, name, _, _, _, rfl⟩ := createFile_ok made
    simpa [put, SortedMap.get?_insert] using holds
  move holds moved := by
    obtain ⟨old, bytes, dir, name, _, held, _, _, _, rfl⟩ := renameFile_ok moved
    have below : old ≠ [] := by
      rintro rfl
      rw [get?_root] at held
      cases held
    simpa [put, remove, SortedMap.get?_insert, SortedMap.get?_erase, Ne.symm below] using holds

theorem ext_get? (current : d.current = e.current) (root : d.nodes.get? [] = e.nodes.get? [])
    (same : ∀ p, d.get? p = e.get? p) : d = e := by
  have nodes : d.nodes = e.nodes := SortedMap.ext_get? fun p n => by
    by_cases here : p = []
    · rw [here, root]
    · have look := same p
      simp only [get?, here, ↓reduceIte] at look
      rw [look]
  obtain ⟨nodes', current'⟩ := d
  obtain rfl : nodes' = e.nodes := nodes
  obtain rfl : current' = e.current := current
  rfl

/-! ### Trees that are being filled -/

/-- A tree while it is filled: besides the files that were written last it holds the directories above
them, and all files are at places of an export tree. -/
structure Filling (d : Disk) (base top : String) (B : Place) (ws : List (Place × ByteArray)) :
    Prop where
  leads : d.Leads base B
  grounded : d.Grounded
  tree : d.Tree (B ++ [top]) ws
  bare : d.Bare (B ++ [top]) ws
  places : ∀ w ∈ ws, IsFilePlace w.1 ∧ IsTreePlace w.1

namespace Filling
variable (filling : d.Filling base top B ws)
include filling

theorem way (file : IsTreePlace (names ++ [last])) : d.Open B (top :: names) := by
  rintro (_ | ⟨s, t⟩) some inside
  · exact absurd rfl some
  obtain ⟨rfl, below⟩ := List.cons_prefix_cons.mp inside
  cases stands : d.get? (B ++ s :: t) with
  | none => exact .inl rfl
  | some n =>
    rw [List.append_cons] at stands
    obtain ⟨bytes, rfl⟩ | ⟨rfl, _⟩ := filling.bare t n stands
    · have above := (filling.places _ ((filling.tree t bytes).mp stands).mem).2
      obtain rfl := IsTreePlace.flat t _ above file (below.trans (List.prefix_append names [last]))
      have size := below.length_le
      rw [List.length_append, List.length_singleton] at size
      omega
    · exact .inr rfl

theorem above_file {p : Place} (dir : d.isDirAt (B ++ (top :: p)) = true) :
    ∃ more, more ≠ [] ∧ IsTreePlace (p ++ more) := by
  rw [isDirAt_iff, List.append_cons] at dir
  obtain ⟨_, wrong⟩ | ⟨_, w, member, more, below, spelled⟩ := filling.bare p _ dir
  · cases wrong
  · exact ⟨more, below, spelled ▸ (filling.places w member).2⟩

theorem target_free (file : IsTreePlace (names ++ [last])) :
    d.isDirAt (B ++ (top :: names ++ [last])) = false := by
  rw [Bool.eq_false_iff]
  intro dir
  obtain ⟨more, below, file'⟩ := filling.above_file dir
  have same := IsTreePlace.flat _ _ file file' (List.prefix_append _ more)
  exact below (by simpa using same)

theorem sibling_free (names : Place) (last : String) :
    d.isDirAt (B ++ (top :: names ++ [last ++ ".tmp"])) = false := by
  rw [Bool.eq_false_iff]
  intro dir
  obtain ⟨more, below, file⟩ := filling.above_file dir
  obtain ⟨s, more, rfl⟩ := List.exists_cons_of_ne_nil below
  generalize whole : names ++ [last ++ ".tmp"] ++ s :: more = place at file
  have size := congrArg List.length whole
  simp only [List.length_append, List.length_cons, List.length_nil] at size
  cases file with
  | top known =>
    simp only [List.length_cons, List.length_nil] at size
    omega
  | inside apart _ _ =>
    cases names with
    | nil =>
      obtain ⟨rfl, _⟩ := List.cons.inj whole
      exact apart.2.2 (by simp)
    | cons t names =>
      simp only [List.length_cons, List.length_nil] at size
      omega

theorem timber : d.Timber (B ++ [top]) := filling.bare.timber filling.grounded filling.tree

end Filling

end Disk

/-! ### Plans that run through -/

structure Plan.Regular (plan : Plan) : Prop where
  sound : plan.Sound
  fits : plan.Fits IsTreePlace
  direct : ∀ a ∈ plan, ∀ s n, a ≠ .copy s n

theorem Plan.Regular.part {plan part : Plan} (regular : plan.Regular) (inside : part ⊆ plan) :
    part.Regular where
  sound a member := regular.sound a (inside member)
  fits a member := regular.fits a (inside member)
  direct a member := regular.direct a (inside member)

def Admitted (base top : String) (place : Place) : Prop :=
  ∀ names last, place = names ++ [last] → Disk.Admits base (top :: names) last

namespace Disk.Filling
variable {d e e' : Disk} {base top : String} {B : Place} {ws ws' : List (Place × ByteArray)}
  {plan rest : Plan}

theorem fill (filling : d.Filling base top B ws) (c : IsComponent top) (sound : plan.Sound)
    (fits : plan.Fits IsTreePlace) (ran : plan.run (join base top) d = (.ok (), e)) :
    e.Filling base top B (ws ++ plan.effects (join base top) d) := by
  have works := Plan.run_worksIn filling.leads c sound ran
  obtain ⟨tree, places⟩ := Plan.run_effects filling.leads c sound ran filling.tree fun w member =>
    (filling.places w member).1
  refine ⟨filling.leads.kept works.keeps, Plan.run_grounded filling.grounded ran, tree, ?_,
    fun w member => ⟨places w member, ?_⟩⟩
  · exact Plan.run_preserves (P := fun d ws => d.Bare (B ++ [top]) ws)
      (fun _ _ _ _ _ _ _ bare _ success exports => bare.write success exports) filling.leads c sound
      ran filling.bare
  · rcases List.mem_append.mp member with before | now
    · exact (filling.places w before).2
    · exact fits.effects w now

theorem write_ok_iff {names : Place} {content : FileContent} (filling : d.Filling base top B ws)
    (c : IsComponent top) (place : IsFilePlace names) (file : IsTreePlace names) :
    (∃ e, (Action.write names content).run (join base top) d = (.ok (), e)) ↔
      Admitted base top names := by
  obtain ⟨above, last, rfl⟩ := (List.eq_nil_or_concat' names).resolve_left place.filled
  have plain : ∀ s ∈ top :: above ++ [last], IsComponent s :=
    List.forall_mem_cons.mpr ⟨c, place.plain⟩
  constructor
  · rintro ⟨e, wrote⟩ names' last' same
    obtain ⟨rfl, ends⟩ := List.append_inj' same rfl
    obtain rfl : last = last' := by simpa using ends
    replace wrote : d.writeExport (pathBelow base (top :: above ++ [last])) content = (.ok (), e) :=
      wrote
    obtain ⟨start, s, whole⟩ := (List.eq_nil_or_concat' (top :: above)).resolve_left (by simp)
    rw [whole] at wrote plain ⊢
    exact writeExport_admits plain wrote
  · intro admitted
    have wrote : ∃ e, d.writeExport (pathBelow base (top :: above ++ [last])) content = (.ok (), e) :=
      writeExport_of_admits (List.cons_ne_nil top above) filling.leads plain (filling.way file)
        (filling.target_free file) (filling.sibling_free above last) (admitted above last rfl)
    exact wrote

/- Nothing that a plan writes is in the way of what it writes later, so the files can be looked at one by
   one. The induction is on the plan; `ws` are the writes before it. -/
theorem run_ok_iff (filling : d.Filling base top B ws) (c : IsComponent top) (regular : plan.Regular) :
    (∃ e, plan.run (join base top) d = (.ok (), e)) ↔
      plan.Clean ∧ ∀ w ∈ plan.writes, Admitted base top w.1 := by
  induction plan generalizing d ws with
  | nil => simp [Plan.run, Plan.Clean, Plan.writes]
  | cons a rest ih =>
    cases a with
    | copy source names => exact absurd rfl (regular.direct _ (by simp) source names)
    | fail err =>
      have stuck : ∀ e, Plan.run (join base top) d (.fail err :: rest) ≠ (.ok (), e) := by
        simp [Plan.run, Action.run]
      refine iff_of_false (fun through => through.elim stuck) fun tidy => ?_
      exact tidy.1 err List.mem_cons_self
    | write names content =>
      have place := regular.sound _ List.mem_cons_self names rfl
      have file := regular.fits _ List.mem_cons_self names rfl
      have one : (∃ mid, (Action.write names content).run (join base top) d = (.ok (), mid)) ↔
          Admitted base top names := filling.write_ok_iff c place file
      have next : ∀ {mid}, (Action.write names content).run (join base top) d = (.ok (), mid) →
          ((∃ e, Plan.run (join base top) mid rest = (.ok (), e)) ↔
            Plan.Clean rest ∧ ∀ w ∈ Plan.writes rest, Admitted base top w.1) := fun {mid} first => by
        rw [← Plan.run_singleton] at first
        have head : Plan.Regular [.write names content] := regular.part (by simp)
        exact ih (filling.fill c head.sound head.fits first) (regular.part (List.subset_cons_self _ _))
      have listed : Plan.writes (.write names content :: rest) =
          (names, content.bytes) :: Plan.writes rest := rfl
      rw [listed, List.forall_mem_cons, Plan.clean_cons, ← one]
      constructor
      · rintro ⟨e, ran⟩
        rw [← List.singleton_append] at ran
        obtain ⟨mid, first, later⟩ := Plan.run_append_ok.mp ran
        rw [Plan.run_singleton] at first
        obtain ⟨clean, admitted⟩ := (next first).mp ⟨e, later⟩
        exact ⟨⟨by simp, clean⟩, ⟨mid, first⟩, admitted⟩
      · rintro ⟨⟨_, clean⟩, ⟨mid, first⟩, admitted⟩
        obtain ⟨e, later⟩ := (next first).mpr ⟨clean, admitted⟩
        rw [← Plan.run_singleton] at first
        exact ⟨e, Plan.run_append_ok.mpr ⟨mid, first, later⟩⟩

theorem disk_eq (filled : e.Filling base top B ws) (filled' : e'.Filling base top B ws')
    (works : d.WorksIn (B ++ [top]) e) (works' : d.WorksIn (B ++ [top]) e')
    (root : e.nodes.get? [] = e'.nodes.get? [])
    (last : ∀ w, IsLast Prod.fst ws w ↔ IsLast Prod.fst ws' w) : e = e' := by
  refine ext_get? (works.keeps.current.trans works'.keeps.current.symm) root fun p => ?_
  by_cases inside : B ++ [top] <+: p
  · obtain ⟨t, rfl⟩ := inside
    exact filled.timber.get?_eq filled'.timber fun more bytes => by
      rw [filled.tree, filled'.tree, last]
  · rw [works.outside p inside, works'.outside p inside]

end Disk.Filling

/-! ### Plans that come to the same -/

/-- Both plans give up, or neither does and they write the same last. -/
structure Plan.Alike (p q : Plan) : Prop where
  clean : p.Clean ↔ q.Clean
  last : p.Clean → ∀ w, IsLast Prod.fst p.writes w ↔ IsLast Prod.fst q.writes w

namespace Plan
variable {p q : Plan} {d e : Disk} {base top : String} {B : Place} {ws : List (Place × ByteArray)}

theorem Alike.refl (p : Plan) : p.Alike p := ⟨.rfl, fun _ _ => .rfl⟩

theorem Alike.symm (alike : p.Alike q) : q.Alike p :=
  ⟨alike.clean.symm, fun clean w => (alike.last (alike.clean.mpr clean) w).symm⟩

theorem Alike.place_mem (alike : p.Alike q) (clean : p.Clean) {place : Place}
    (member : place ∈ p.writes.map Prod.fst) : place ∈ q.writes.map Prod.fst := by
  obtain ⟨w, written, rfl⟩ := List.mem_map.mp member
  obtain ⟨v, final, same⟩ : ∃ v, IsLast Prod.fst p.writes v ∧ v.1 = w.1 := exists_isLast written
  exact List.mem_map.mpr ⟨v, ((alike.last clean v).mp final).mem, same⟩

theorem Alike.place (alike : p.Alike q) (clean : p.Clean) {place : Place} :
    place ∈ p.writes.map Prod.fst ↔ place ∈ q.writes.map Prod.fst :=
  ⟨alike.place_mem clean, alike.symm.place_mem (alike.clean.mp clean)⟩

theorem Alike.after (alike : p.Alike q) (clean : p.Clean) (w : Place × ByteArray) :
    IsLast Prod.fst (ws ++ p.writes) w ↔ IsLast Prod.fst (ws ++ q.writes) w := by
  have apart : ∀ p : Plan, (∀ b ∈ p.writes, b.1 ≠ w.1) ↔ w.1 ∉ p.writes.map Prod.fst := fun p => by
    simp only [List.mem_map, not_exists, not_and, ne_eq]
  rw [isLast_append, isLast_append, alike.last clean w, apart, apart, alike.place clean]

theorem Alike.run (alike : p.Alike q) (filling : d.Filling base top B ws) (c : IsComponent top)
    (regular : p.Regular) (regular' : q.Regular) (ran : p.run (join base top) d = (.ok (), e)) :
    q.run (join base top) d = (.ok (), e) := by
  obtain ⟨clean, admitted⟩ := (filling.run_ok_iff c regular).mp ⟨e, ran⟩
  have admitted' : ∀ w ∈ q.writes, Admitted base top w.1 := by
    intro w member
    obtain ⟨v, written, same⟩ := List.mem_map.mp
      ((alike.place clean).mpr (List.mem_map_of_mem (f := Prod.fst) member))
    exact same ▸ admitted v written
  obtain ⟨e', ran'⟩ := (filling.run_ok_iff c regular').mpr ⟨alike.clean.mp clean, admitted'⟩
  have filled := filling.fill c regular.sound regular.fits ran
  have filled' := filling.fill c regular'.sound regular'.fits ran'
  rw [effects_direct regular.direct] at filled
  rw [effects_direct regular'.direct] at filled'
  have root := run_preserved (Disk.root_preserved (d.nodes.get? [])) rfl ran
  have root' := run_preserved (Disk.root_preserved (d.nodes.get? [])) rfl ran'
  rw [ran', filled.disk_eq filled' (run_worksIn filling.leads c regular.sound ran)
    (run_worksIn filling.leads c regular'.sound ran') (root.trans root'.symm) (alike.after clean)]

def StepsAlike : Steps → Steps → Prop := List.Forall₂ fun s t => s.2.Alike t.2

theorem StepsAlike.append {steps steps' rest rest' : Steps} (first : StepsAlike steps steps')
    (second : StepsAlike rest rest') : StepsAlike (steps ++ rest) (steps' ++ rest') :=
  List.rel_append first second

theorem StepsAlike.alike {steps steps' : Steps} (each : StepsAlike steps steps') (apart : Apart steps)
    (apart' : Apart steps') :
    Alike (steps.flatMap Prod.snd) (steps'.flatMap Prod.snd) := by
  have clean : ∀ steps : Steps, Clean (steps.flatMap Prod.snd) ↔ ∀ s ∈ steps, s.2.Clean := fun steps =>
    ⟨fun clean s member => clean.step member, fun all err member => by
      obtain ⟨s, step, failed⟩ := List.mem_flatMap.mp member
      exact all s step err failed⟩
  constructor
  · rw [clean, clean]
    clear apart apart'
    induction each with
    | nil => rfl
    | cons alike _ ih => rw [List.forall_mem_cons, List.forall_mem_cons, alike.clean, ih]
  · intro all w
    rw [apart.isLast, apart'.isLast]
    replace all := (clean steps).mp all
    clear apart apart'
    induction each with
    | nil => rfl
    | cons alike _ ih =>
      obtain ⟨here, later⟩ := List.forall_mem_cons.mp all
      simp only [List.mem_cons, exists_eq_or_imp, alike.last here, ih later]

end Plan

theorem Exporter.Opened.filling {d opened : Disk} {workDir area : String} {names : List String} {A : Place}
    (fresh : Exporter.Opened d workDir names area A opened) (grounded : d.Grounded)
    (grounded' : opened.Grounded) : opened.Filling area Exporter.treeName A [] where
  leads := fresh.leads
  grounded := grounded'
  tree := fresh.tree_empty grounded
  bare t n stands := by
    rw [List.append_assoc, List.singleton_append,
      fresh.empty grounded (Exporter.treeName :: t) (by simp)] at stands
    cases stands
  places := by simp

end SignedManifest
