import SignedManifest.Record.Entitlement
import SignedManifest.Proofs.Record.Nesting

/-!
The records of a snapshot that was read. Each of them was read at the level where it stands, so what
is written of it alone is never too deep for the reader, even with the attributes and the provided
products that its text left out.
-/
namespace SignedManifest
open Json Codec

variable {d : Nat}

/-! ### Products inside products -/

namespace Product

theorem provided_depth {p q : Product} (member : q ∈ p.provided) : q.json.depth ≤ p.json.depth := by
  obtain ⟨id, name, multiplier, attributes, provided, derived⟩ := p
  have inside : q.json.depth ≤ itemsDepth (listJson provided) :=
    itemsDepth_le.mp (Nat.le_refl _) _ (by rw [listJson_eq]; exact List.mem_map_of_mem member)
  have whole : itemsDepth (listJson provided) + 1 ≤ (json ⟨id, name, multiplier, attributes, provided,
      derived⟩).depth := by
    cases multiplier <;> simp [json, depth, membersDepth]
  omega

theorem derived_depth {p q : Product} (guest : p.derived = some q) : q.json.depth ≤ p.json.depth := by
  obtain ⟨id, name, multiplier, attributes, provided, derived⟩ := p
  obtain rfl : derived = some q := guest
  cases multiplier <;> simp [json, derivedMembers, depth, membersDepth] <;> omega

mutual

theorem tree_depth {q : Product} : (p : Product) → q ∈ p.tree → q.json.depth ≤ p.json.depth
  | ⟨id, name, multiplier, attributes, provided, derived⟩, member => by
    rw [tree] at member
    obtain rfl | below := List.mem_cons.mp member
    · exact Nat.le_refl _
    · obtain ⟨p, here, less⟩ := trees_depth provided below
      exact Nat.le_trans less (provided_depth here)

theorem trees_depth {q : Product} :
    (ps : List Product) → q ∈ trees ps → ∃ p ∈ ps, q.json.depth ≤ p.json.depth
  | [], member => by cases member
  | p :: ps, member => by
    rw [trees] at member
    obtain here | later := List.mem_append.mp member
    · exact ⟨p, List.mem_cons_self, tree_depth p here⟩
    · obtain ⟨r, there, less⟩ := trees_depth ps later
      exact ⟨r, List.mem_cons_of_mem p there, less⟩

end

end Product

theorem Entitlement.products_depth {e : Entitlement} {p : Product} (member : p ∈ e.products) :
    p.json.depth ≤ e.pool.product.json.depth := by
  obtain main | guest := List.mem_append.mp member
  · exact Product.tree_depth _ main
  · cases derived : e.pool.product.derived with
    | none => simp [derived] at guest
    | some q =>
      rw [derived] at guest
      exact Nat.le_trans (Product.tree_depth q guest) (Product.derived_depth derived)

/-! ### The levels of records -/

theorem Pool.product_gave {p : Pool} (gave : layout.codec.Gave d p) :
    ∃ k, d = k + 1 ∧ Product.codec.Gave k p.product := by
  obtain ⟨_, _, read⟩ := gave
  obtain ⟨k, _, rfl, gained, rfl⟩ := Layout.read_ok read
  exact ⟨k, rfl, Field.gives_required gained.2.1⟩

theorem Entitlement.pool_gave {e : Entitlement} (gave : layout.codec.Gave d e) :
    ∃ k, d = k + 1 ∧ Pool.layout.codec.Gave k e.pool := by
  obtain ⟨_, _, read⟩ := gave
  obtain ⟨k, _, rfl, gained, rfl⟩ := Layout.read_ok read
  exact ⟨k, rfl, Field.gives_required gained.2.1⟩

theorem Consumer.entitlement_gave {c : Consumer} {e : Entitlement} (gave : layout.codec.Gave d c)
    (member : e ∈ c.entitlements) : ∃ k, d = k + 2 ∧ Entitlement.layout.codec.Gave k e := by
  obtain ⟨_, _, read⟩ := gave
  obtain ⟨_, v, rfl, gained, rfl⟩ := Layout.read_ok read
  obtain listed | none := Field.gives_defaulted gained.2.2.2.2.2.2.2.1
  · obtain ⟨k, rfl, each⟩ := listed.items
    exact ⟨k, rfl, each e member⟩
  · have empty : (layout.make v).entitlements = [] := none
    rw [empty] at member
    cases member

namespace Snapshot
variable {bytes : ByteArray} {s : Snapshot} {e : Entitlement}

theorem entitlement_gave (accepted : layout.codec.decode bytes = .ok s)
    (member : e ∈ s.consumer.entitlements) :
    ∃ k, depthLimit = k + 3 ∧ Entitlement.layout.codec.Gave k e := by
  obtain ⟨_, _, read⟩ := gave_of_decode accepted
  obtain ⟨_, _, level, gained, rfl⟩ := Layout.read_ok read
  obtain ⟨k, rfl, gave⟩ := Consumer.entitlement_gave (Field.gives_required gained.1) member
  exact ⟨k, level, gave⟩

/- Two levels above it the consumer and the list of entitlements stand, and above them the snapshot. -/
theorem entitlement_fits (accepted : layout.codec.decode bytes = .ok s)
    (member : e ∈ s.consumer.entitlements) : (Entitlement.layout.json e).depth ≤ depthLimit := by
  obtain ⟨k, level, gave⟩ := entitlement_gave accepted member
  have most : (Entitlement.layout.json e).depth ≤ k + 1 := Entitlement.bounded.depth_le gave
  omega

theorem product_fits (accepted : layout.codec.decode bytes = .ok s)
    (member : e ∈ s.consumer.entitlements) {p : Product} (reached : p ∈ e.products) :
    p.json.depth ≤ depthLimit := by
  obtain ⟨_, level, entitlement⟩ := entitlement_gave accepted member
  obtain ⟨_, rfl, pool⟩ := Entitlement.pool_gave entitlement
  obtain ⟨k, rfl, product⟩ := Pool.product_gave pool
  have most : e.pool.product.json.depth ≤ k + 1 := Product.bounded.depth_le product
  have inside := Entitlement.products_depth reached
  omega

end Snapshot

end SignedManifest
