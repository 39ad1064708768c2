import SignedManifest.Json.Layout
/-!
Products: what is sold, the products that it provides, and the derived product that guests get.
-/
namespace SignedManifest

open Json

structure Product where
  id : String
  name : String
  multiplier : Option Int64 := none
  attributes : SortedMap String String := ∅
  provided : List Product := []
  derived : Option Product := none

namespace Product

def layoutOver (inner : Codec Product) : Layout Product where
  name := "Product"
  fields := [.required "id" .text, .required "name" .text, .optional "multiplier" .i64,
    .defaulted "attributes" (Codec.map .text) ∅, .defaulted "providedProducts" (Codec.list inner) [],
    .optional "derivedProduct" inner]
  make := fun (id, name, multiplier, attributes, provided, derived, _) =>
    ⟨id, name, multiplier, attributes, provided, derived⟩
  parts p := (p.id, p.name, p.multiplier, p.attributes, p.provided, p.derived, ())

mutual

def json : Product → Json
  | ⟨id, name, multiplier, attributes, provided, derived⟩ =>
    .obj (("id", .str id) :: ("name", .str name) ::
      ((multiplier.map fun n => ("multiplier", Codec.i64.write n)).toList ++
        ("attributes", (Codec.map .text).write attributes) ::
        ("providedProducts", .arr (listJson provided)) :: derivedMembers derived))

def listJson : List Product → List Json
  | [] => []
  | p :: ps => p.json :: listJson ps

def derivedMembers : Option Product → List (String × Json)
  | none => []
  | some p => [("derivedProduct", p.json)]

end

def readNested : Nat → Reader Product
  | 0 => fun _ => Scan.malformed
  | n + 1 => (layoutOver ⟨readNested n, json⟩).read

/-- Every product inside another one costs a level, so one round more than there are levels is
enough. -/
def codec : Codec Product where
  read depth := readNested (depth + 1) depth
  write := json

/-- Products for machines have ids of digits only; those for sale do not. -/
def isEngineering (p : Product) : Bool := !p.id.isEmpty && p.id.toList.all Text.isDigit

end Product

end SignedManifest
