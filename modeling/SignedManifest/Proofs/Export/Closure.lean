import SignedManifest.Record.Entitlement
import SignedManifest.Proofs.SortedMap

/-!
What the product closure holds: for each id that the entitlements reach, the first product with it.
-/
namespace SignedManifest

variable {m : SortedMap String Product} {p : Product} {id : String}

theorem addProduct_get? :
    (addProduct m p).get? id = (m.get? id).or (if p.id = id then some p else none) := by
  unfold addProduct
  by_cases taken : m.contains p.id
  · by_cases here : p.id = id
    · obtain ⟨q, found⟩ := Option.isSome_iff_exists.mp taken
      simp [← here, taken, found]
    · simp [taken, here]
  · have free : m.get? p.id = none := by simpa [SortedMap.contains] using taken
    rw [if_neg taken, SortedMap.get?_insert]
    by_cases here : p.id = id
    · simp [← here, free]
    · simp [here, Ne.symm here]

theorem foldl_addProduct_get? (ps : List Product) :
    (ps.foldl addProduct m).get? id = (m.get? id).or (ps.find? fun p => p.id == id) := by
  induction ps generalizing m with
  | nil => simp
  | cons p ps ih =>
    rw [List.foldl_cons, ih, addProduct_get?, Option.or_assoc]
    by_cases here : p.id = id <;> simp [here]

theorem productClosure_get? (es : List Entitlement) (id : String) :
    (productClosure es).get? id = (es.flatMap Entitlement.products).find? fun p => p.id == id := by
  rw [productClosure, foldl_addProduct_get?]
  rfl

theorem productClosure_id {es : List Entitlement} (found : (productClosure es).get? id = some p) :
    p.id = id := by
  rw [productClosure_get?] at found
  simpa using List.find?_some found

theorem mem_productClosure_values {es : List Entitlement} :
    p ∈ (productClosure es).values ↔ (productClosure es).get? p.id = some p := by
  simp only [SortedMap.values, List.mem_map, Prod.exists, exists_eq_right, SortedMap.mem_toList_iff]
  constructor
  · rintro ⟨id, found⟩
    rwa [productClosure_id found]
  · exact fun found => ⟨p.id, found⟩

theorem productClosure_ids_nodup (es : List Entitlement) :
    ((productClosure es).values.map Product.id).Nodup := by
  have keys : (productClosure es).values.map Product.id = (productClosure es).keys := by
    simp only [SortedMap.values, SortedMap.keys, List.map_map]
    refine List.map_congr_left fun (id, p) member => ?_
    exact productClosure_id (SortedMap.mem_toList_iff.mp member)
  exact keys ▸ SortedMap.keys_nodup _

end SignedManifest
