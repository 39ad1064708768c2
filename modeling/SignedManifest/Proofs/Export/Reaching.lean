import Mathlib.Data.List.Lex
import Mathlib.Order.Lattice.Nat
import SignedManifest.Proofs.Export.Closure

/-!
The product closure against the products themselves. Whatever an entitlement reaches stands at a stop:
the place of the entitlement, of one of its two trees, and of the provided products on the way down.
Stops in the order of dictionaries are the traversal, each product before what it provides; the closure
has the ids of all that is reached, each with the product at the first stop.
-/
namespace SignedManifest

/-! ### What is reached -/

inductive Product.Provides : Product → Product → Prop where
  | direct {p q : Product} (here : q ∈ p.provided) : p.Provides q
  | deeper {p q r : Product} (here : q ∈ p.provided) (below : q.Provides r) : p.Provides r

/-- What an entitlement reaches. A derived product is followed from the pool's own product alone. -/
inductive Entitlement.Reaches (e : Entitlement) : Product → Prop where
  | own : e.Reaches e.pool.product
  | provided {q : Product} (below : e.pool.product.Provides q) : e.Reaches q
  | derived {p : Product} (guest : e.pool.product.derived = some p) : e.Reaches p
  | derivedProvided {p q : Product} (guest : e.pool.product.derived = some p)
      (below : p.Provides q) : e.Reaches q

namespace Product

def under? (p : Product) : List Nat → Option Product
  | [] => some p
  | n :: way => p.provided[n]?.bind fun q => q.under? way

theorem Provides.trans {p q r : Product} (first : p.Provides q) (second : q.Provides r) :
    p.Provides r := by
  induction first with
  | direct here => exact .deeper here second
  | deeper here _ ih => exact .deeper here (ih second)

theorem provides_iff {p q : Product} :
    p.Provides q ↔ ∃ n way, p.under? (n :: way) = some q := by
  constructor
  · intro provides
    induction provides with
    | direct here =>
      obtain ⟨n, found⟩ := List.mem_iff_getElem?.mp here
      exact ⟨n, [], by simp [under?, found]⟩
    | deeper here _ ih =>
      obtain ⟨n, found⟩ := List.mem_iff_getElem?.mp here
      obtain ⟨m, way, ends⟩ := ih
      exact ⟨n, m :: way, by rw [under?, found, Option.bind_some, ends]⟩
  · rintro ⟨n, way, ends⟩
    induction way generalizing p n with
    | nil =>
      obtain ⟨r, found, last⟩ := Option.bind_eq_some_iff.mp ends
      cases last
      exact .direct (List.mem_of_getElem? found)
    | cons m way ih =>
      obtain ⟨r, found, later⟩ := Option.bind_eq_some_iff.mp ends
      exact .deeper (List.mem_of_getElem? found) (ih m later)

end Product

/-! ### Stops -/

def Entitlement.roots (e : Entitlement) : List Product :=
  e.pool.product :: e.pool.product.derived.toList

def inside? {α : Type} (at? : α → List Nat → Option Product) (xs : List α) :
    List Nat → Option Product
  | [] => none
  | n :: way => xs[n]?.bind fun x => at? x way

def Entitlement.under? (e : Entitlement) : List Nat → Option Product :=
  inside? Product.under? e.roots

/-- The product at a stop: the place of an entitlement, 0 for its product or 1 for the derived one, and
the way down. -/
def reachedAt? (es : List Entitlement) : List Nat → Option Product :=
  inside? Entitlement.under? es

theorem mem_roots {e : Entitlement} {p : Product} :
    p ∈ e.roots ↔ p = e.pool.product ∨ e.pool.product.derived = some p := by
  simp [Entitlement.roots]

theorem Entitlement.reaches_iff {e : Entitlement} {p : Product} :
    e.Reaches p ↔ ∃ q ∈ e.roots, p = q ∨ q.Provides p := by
  constructor
  · intro reaches
    cases reaches with
    | own => exact ⟨_, mem_roots.mpr (.inl rfl), .inl rfl⟩
    | provided below => exact ⟨_, mem_roots.mpr (.inl rfl), .inr below⟩
    | derived guest => exact ⟨p, mem_roots.mpr (.inr guest), .inl rfl⟩
    | derivedProvided guest below => exact ⟨_, mem_roots.mpr (.inr guest), .inr below⟩
  · rintro ⟨q, root, rfl | below⟩
    · rcases mem_roots.mp root with rfl | guest
      · exact .own
      · exact .derived guest
    · rcases mem_roots.mp root with rfl | guest
      · exact .provided below
      · exact .derivedProvided guest below

theorem Entitlement.Reaches.provides {e : Entitlement} {p q : Product} (reaches : e.Reaches p)
    (below : p.Provides q) : e.Reaches q := by
  obtain ⟨root, started, rfl | above⟩ := Entitlement.reaches_iff.mp reaches
  · exact Entitlement.reaches_iff.mpr ⟨p, started, .inr below⟩
  · exact Entitlement.reaches_iff.mpr ⟨root, started, .inr (above.trans below)⟩

theorem Entitlement.reaches_iff_under? {e : Entitlement} {p : Product} :
    e.Reaches p ↔ ∃ stop, e.under? stop = some p := by
  rw [Entitlement.reaches_iff]
  constructor
  · rintro ⟨q, root, reached⟩
    obtain ⟨n, found⟩ := List.mem_iff_getElem?.mp root
    rcases reached with rfl | below
    · exact ⟨[n], by simp [under?, inside?, found, Product.under?]⟩
    · obtain ⟨m, way, ends⟩ := Product.provides_iff.mp below
      exact ⟨n :: m :: way, by simp [under?, inside?, found, ends]⟩
  · rintro ⟨_ | ⟨n, way⟩, ends⟩
    · cases ends
    obtain ⟨q, found, ends⟩ := Option.bind_eq_some_iff.mp ends
    refine ⟨q, List.mem_of_getElem? found, ?_⟩
    cases way with
    | nil => exact .inl (Option.some.inj ends).symm
    | cons m way => exact .inr (Product.provides_iff.mpr ⟨m, way, ends⟩)

theorem reached_iff {es : List Entitlement} {p : Product} :
    (∃ e ∈ es, e.Reaches p) ↔ ∃ stop, reachedAt? es stop = some p := by
  simp only [Entitlement.reaches_iff_under?]
  constructor
  · rintro ⟨e, member, stop, ends⟩
    obtain ⟨n, found⟩ := List.mem_iff_getElem?.mp member
    exact ⟨n :: stop, by simp [reachedAt?, inside?, found, ends]⟩
  · rintro ⟨_ | ⟨n, stop⟩, ends⟩
    · cases ends
    obtain ⟨e, found, ends⟩ := Option.bind_eq_some_iff.mp ends
    exact ⟨e, List.mem_of_getElem? found, stop, ends⟩

/-! ### The traversal goes from stop to stop -/

/-- A list of products goes through the stops at which something stands, in their order. -/
structure Visits (at? : List Nat → Option Product) (stops : List (List Nat)) (l : List Product) :
    Prop where
  listed : stops.map at? = l.map some
  ordered : stops.Pairwise (· < ·)
  complete : ∀ stop p, at? stop = some p → stop ∈ stops

section
variable {at? : List Nat → Option Product} {stops : List (List Nat)} {l : List Product}

theorem find?_of_listed {test : Product → Bool} {p : Product} (listed : stops.map at? = l.map some)
    (ordered : stops.Pairwise (· < ·)) :
    l.find? test = some p ↔ ∃ stop ∈ stops, at? stop = some p ∧ test p = true ∧
      ∀ earlier ∈ stops, earlier < stop → ∀ q, at? earlier = some q → test q = false := by
  induction stops generalizing l with
  | nil => simp [List.map_eq_nil_iff.mp listed.symm]
  | cons first stops ih =>
    obtain _ | ⟨x, l⟩ := l
    · cases listed
    obtain ⟨here, listed⟩ := List.cons.inj listed
    obtain ⟨before, ordered⟩ := List.pairwise_cons.mp ordered
    by_cases passes : test x = true
    · rw [List.find?_cons_of_pos passes, Option.some.injEq]
      constructor
      · rintro rfl
        refine ⟨first, by simp, here, passes, fun earlier member less => ?_⟩
        rcases List.mem_cons.mp member with rfl | member
        · exact absurd less (List.lt_irrefl _)
        · exact absurd less (List.lt_asymm (before _ member))
      · rintro ⟨stop, member, found, _, least⟩
        rcases List.mem_cons.mp member with rfl | member
        · exact Option.some.inj (here.symm.trans found)
        · rw [least first (by simp) (before _ member) x here] at passes
          contradiction
    · rw [List.find?_cons_of_neg passes, ih listed ordered]
      constructor
      · rintro ⟨stop, member, found, hit, least⟩
        refine ⟨stop, by simp [member], found, hit, fun earlier among less q there => ?_⟩
        rcases List.mem_cons.mp among with rfl | among
        · obtain rfl := Option.some.inj (here.symm.trans there)
          simpa using passes
        · exact least earlier among less q there
      · rintro ⟨stop, member, found, hit, least⟩
        rcases List.mem_cons.mp member with rfl | member
        · obtain rfl := Option.some.inj (here.symm.trans found)
          exact absurd hit passes
        · exact ⟨stop, member, found, hit, fun earlier among =>
            least earlier (List.mem_cons_of_mem _ among)⟩

theorem Visits.mem_iff (visits : Visits at? stops l) {p : Product} :
    p ∈ l ↔ ∃ stop, at? stop = some p := by
  have listed : some p ∈ stops.map at? ↔ some p ∈ l.map some := by rw [visits.listed]
  simp only [List.mem_map, Option.some.injEq, exists_eq_right] at listed
  rw [← listed]
  exact ⟨fun ⟨stop, _, found⟩ => ⟨stop, found⟩, fun ⟨stop, found⟩ =>
    ⟨stop, visits.complete stop p found, found⟩⟩

theorem Visits.find?_iff (visits : Visits at? stops l) {test : Product → Bool} {p : Product} :
    l.find? test = some p ↔ ∃ stop, at? stop = some p ∧ test p = true ∧
      ∀ earlier q, earlier < stop → at? earlier = some q → test q = false := by
  rw [find?_of_listed visits.listed visits.ordered]
  constructor
  · rintro ⟨stop, _, found, hit, least⟩
    exact ⟨stop, found, hit, fun earlier q less there =>
      least earlier (visits.complete _ _ there) less q there⟩
  · rintro ⟨stop, found, hit, least⟩
    exact ⟨stop, visits.complete _ _ found, found, hit, fun earlier _ less q there =>
      least earlier q less there⟩

end

theorem visits_flatMap {α : Type} {at? : α → List Nat → Option Product} {list : α → List Product}
    {xs : List α} (each : ∀ x ∈ xs, ∃ stops, Visits (at? x) stops (list x)) :
    ∃ stops, Visits (inside? at? xs) stops (xs.flatMap list) := by
  choose! stops visits using each
  have placed : ∀ t ∈ xs.zipIdx, xs[t.2]? = some t.1 ∧ t.1 ∈ xs := fun t member =>
    have found := List.mk_mem_zipIdx_iff_getElem?.mp member
    ⟨found, List.mem_of_getElem? found⟩
  refine ⟨xs.zipIdx.flatMap fun t => (stops t.1).map (t.2 :: ·), ?_, ?_, ?_⟩
  · calc (xs.zipIdx.flatMap fun t => (stops t.1).map (t.2 :: ·)).map (inside? at? xs)
        = xs.zipIdx.flatMap fun t => (list t.1).map some := by
          rw [List.map_flatMap]
          refine List.flatMap_congr fun t member => ?_
          obtain ⟨found, inside⟩ := placed t member
          rw [List.map_map, ← (visits t.1 inside).listed]
          refine List.map_congr_left fun way _ => ?_
          simp [inside?, found]
      _ = (xs.flatMap list).map some := by
          rw [List.map_flatMap]
          conv_rhs => rw [← List.zipIdx_map_fst 0 xs, List.flatMap_map]
  · refine List.pairwise_flatMap.mpr ⟨fun t member => ?_, ?_⟩
    · refine List.pairwise_map.mpr ((visits t.1 (placed t member).2).ordered.imp fun less => ?_)
      exact List.cons_lt_cons_iff.mpr (.inr ⟨rfl, less⟩)
    · have rising : xs.zipIdx.Pairwise fun t u => t.2 < u.2 := by
        refine List.pairwise_map.mp (?_ : (xs.zipIdx.map Prod.snd).Pairwise (· < ·))
        rw [List.zipIdx_map_snd]
        exact List.pairwise_lt_range'
      refine rising.imp fun {t u} less stop member stop' member' => ?_
      obtain ⟨way, _, rfl⟩ := List.mem_map.mp member
      obtain ⟨way', _, rfl⟩ := List.mem_map.mp member'
      exact List.cons_lt_cons_iff.mpr (.inl less)
  · rintro (_ | ⟨n, way⟩) p ends
    · cases ends
    obtain ⟨x, found, ends⟩ := Option.bind_eq_some_iff.mp ends
    refine List.mem_flatMap.mpr ⟨(x, n), List.mk_mem_zipIdx_iff_getElem?.mpr found, ?_⟩
    exact List.mem_map_of_mem ((visits x (List.mem_of_getElem? found)).complete _ _ ends)

namespace Product

theorem trees_eq (ps : List Product) : trees ps = ps.flatMap tree := by
  induction ps with
  | nil => rfl
  | cons p ps ih => rw [trees, ih, List.flatMap_cons]

theorem tree_eq (p : Product) : p.tree = p :: p.provided.flatMap tree := by
  cases p
  rw [tree, trees_eq]

/- The way down to a product comes before the ways on from it, which go through what it provides. -/
theorem visits_cons {p : Product} {stops : List (List Nat)} {l : List Product}
    (visits : Visits (inside? under? p.provided) stops l) :
    Visits p.under? ([] :: stops) (p :: l) := by
  have goesOn : ∀ stop ∈ stops, ∃ n way, stop = n :: way := by
    intro stop member
    have stands : inside? under? p.provided stop ∈ l.map some := by
      rw [← visits.listed]
      exact List.mem_map_of_mem member
    cases stop with
    | nil => simp [inside?] at stands
    | cons n way => exact ⟨n, way, rfl⟩
  constructor
  case listed =>
    rw [List.map_cons, List.map_cons, ← visits.listed, List.cons.injEq]
    refine ⟨rfl, List.map_congr_left fun stop member => ?_⟩
    obtain ⟨n, way, rfl⟩ := goesOn stop member
    rfl
  case ordered =>
    refine List.pairwise_cons.mpr ⟨fun stop member => ?_, visits.ordered⟩
    obtain ⟨n, way, rfl⟩ := goesOn stop member
    exact List.nil_lt_cons n way
  case complete =>
    rintro (_ | ⟨n, way⟩) q ends
    · simp
    · exact List.mem_cons_of_mem _ (visits.complete (n :: way) q ends)

theorem visits_tree (p : Product) : ∃ stops, Visits p.under? stops p.tree := by
  have each : ∀ q ∈ p.provided, ∃ stops, Visits q.under? stops q.tree := fun q _ => visits_tree q
  obtain ⟨stops, visits⟩ := visits_flatMap each
  exact ⟨[] :: stops, tree_eq p ▸ visits_cons visits⟩
termination_by sizeOf p
decreasing_by
  rename_i member
  have smaller := List.sizeOf_lt_of_mem member
  cases p
  simp only [Product.mk.sizeOf_spec] at smaller ⊢
  omega

end Product

theorem visits_products (e : Entitlement) : ∃ stops, Visits e.under? stops e.products := by
  have each : e.products = e.roots.flatMap Product.tree := by
    cases derived : e.pool.product.derived <;> simp [Entitlement.products, Entitlement.roots, derived]
  exact each ▸ visits_flatMap fun q _ => q.visits_tree

theorem visits_reached (es : List Entitlement) :
    ∃ stops, Visits (reachedAt? es) stops (es.flatMap Entitlement.products) :=
  visits_flatMap fun e _ => visits_products e

/- The closure has the ids of all that is reached and no others, and for each the product at the first
   stop that has it. What is below a product is reached through it also where the closure holds another
   product with its id. -/
theorem productClosure_exact (es : List Entitlement) :
    (∀ id, (productClosure es).contains id = true ↔ ∃ e ∈ es, ∃ p, e.Reaches p ∧ p.id = id) ∧
    (∀ id p, (productClosure es).get? id = some p ↔ ∃ stop, reachedAt? es stop = some p ∧ p.id = id ∧
      ∀ earlier q, earlier < stop → reachedAt? es earlier = some q → q.id ≠ id) ∧
    ∀ e ∈ es, ∀ p q, e.Reaches p → p.Provides q → (productClosure es).contains q.id = true := by
  obtain ⟨stops, visits⟩ := visits_reached es
  have first (id : String) (p : Product) : (productClosure es).get? id = some p ↔
      ∃ stop, reachedAt? es stop = some p ∧ p.id = id ∧
        ∀ earlier q, earlier < stop → reachedAt? es earlier = some q → q.id ≠ id := by
    rw [productClosure_get?, visits.find?_iff]
    simp only [beq_iff_eq, beq_eq_false_iff_ne]
  have keys (id : String) : (productClosure es).contains id = true ↔
      ∃ e ∈ es, ∃ p, e.Reaches p ∧ p.id = id := by
    have reached (p : Product) : (∃ e ∈ es, e.Reaches p) ↔ p ∈ es.flatMap Entitlement.products :=
      reached_iff.trans visits.mem_iff.symm
    rw [SortedMap.contains, productClosure_get?, List.find?_isSome]
    constructor
    · rintro ⟨p, member, same⟩
      obtain ⟨e, inside, reaches⟩ := (reached p).mpr member
      exact ⟨e, inside, p, reaches, eq_of_beq same⟩
    · rintro ⟨e, inside, p, reaches, rfl⟩
      exact ⟨p, (reached p).mp ⟨e, inside, reaches⟩, by simp⟩
  refine ⟨keys, first, fun e member p q reaches below => ?_⟩
  exact (keys q.id).mpr ⟨e, member, q, reaches.provides below, rfl⟩

def soleProduct (p : Product) : Entitlement :=
  ⟨"e", ⟨"p", p, 1, none, none, none, none, none, none, ∅⟩, 1, none, none, [], false⟩

def bundle : Product :=
  ⟨"1", "Bundle", none, ∅, [⟨"2", "Base", none, ∅, [], none⟩],
    some ⟨"3", "Guest", none, ∅, [], some ⟨"8", "Inner", none, ∅, [], none⟩⟩⟩

def namesake : Product :=
  ⟨"2", "Other", none, ∅, [⟨"5", "Below", none, ∅, [], none⟩], none⟩

/- Of two products with one id the first is kept, and what the later one provides is there as well. The
   product that the derived product derives in turn is not. -/
theorem productClosure_exact_namesakes :
    let closure := productClosure [soleProduct bundle, soleProduct namesake]
    (soleProduct namesake).Reaches namesake ∧
      namesake.Provides ⟨"5", "Below", none, ∅, [], none⟩ ∧
      closure.get? "2" = some ⟨"2", "Base", none, ∅, [], none⟩ ∧
      closure.contains "5" = true ∧ closure.contains "8" = false := by
  have reaches : (soleProduct namesake).Reaches namesake := .own
  have provides : namesake.Provides ⟨"5", "Below", none, ∅, [], none⟩ :=
    .direct (by simp [namesake])
  obtain ⟨keys, first, below⟩ := productClosure_exact [soleProduct bundle, soleProduct namesake]
  refine ⟨reaches, provides, ?_, ?_, ?_⟩
  · refine (first _ _).mpr ⟨[0, 0, 0], rfl, rfl, fun earlier q less stands => ?_⟩
    rcases earlier with _ | ⟨n, _ | ⟨m, _ | ⟨k, way⟩⟩⟩
    · cases stands
    · obtain ⟨e, -, ends⟩ := Option.bind_eq_some_iff.mp stands
      cases ends
    · obtain ⟨rfl, rfl⟩ : n = 0 ∧ m = 0 := by simpa [List.cons_lt_cons_iff] using less
      obtain rfl : bundle = q := Option.some.inj stands
      simp [bundle]
    · simp [List.cons_lt_cons_iff] at less
  · exact below (soleProduct namesake) (by simp) namesake _ reaches provides
  · simp [SortedMap.contains, productClosure_get?, Entitlement.products, Product.tree,
      Product.trees, soleProduct, bundle, namesake]

end SignedManifest
