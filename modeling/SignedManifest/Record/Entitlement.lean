import SignedManifest.Record.Certificate
import SignedManifest.Record.Product
/-!
Pools and the entitlements that consumers hold in them, with the products that they reach.
-/
namespace SignedManifest

open Json

structure Pool where
  id : String
  product : Product
  quantity : Int64
  upstreamPoolId : Option String := none
  upstreamEntitlementId : Option String := none
  upstreamConsumerId : Option String := none
  contractNumber : Option String := none
  accountNumber : Option String := none
  orderNumber : Option String := none
  attributes : SortedMap String String := ∅

namespace Pool

def layout : Layout Pool where
  name := "Pool"
  fields := [.required "id" .text, .required "product" Product.codec, .required "quantity" .i64,
    .optional "upstreamPoolId" .text, .optional "upstreamEntitlementId" .text,
    .optional "upstreamConsumerId" .text, .optional "contractNumber" .text,
    .optional "accountNumber" .text, .optional "orderNumber" .text,
    .defaulted "attributes" (Codec.map .text) ∅]
  make := fun (id, product, quantity, pool, entitlement, consumer, contract, account, order,
      attributes, _) =>
    ⟨id, product, quantity, pool, entitlement, consumer, contract, account, order, attributes⟩
  parts p := (p.id, p.product, p.quantity, p.upstreamPoolId, p.upstreamEntitlementId,
    p.upstreamConsumerId, p.contractNumber, p.accountNumber, p.orderNumber, p.attributes, ())

/-- The attribute of a pool that another pool gave rise to. -/
def derivedAttribute : String := "pool_derived"

def isDerived (p : Pool) : Bool :=
  (p.attributes.get? derivedAttribute).any (Text.sameIgnoringCase · "true")

end Pool

structure Entitlement where
  id : String
  pool : Pool
  quantity : UInt32
  startDate : Option Moment := none
  endDate : Option Moment := none
  certificates : List Certificate := []
  /-- Changes are pending that were not reconciled. It is read, and never written. -/
  dirty : Bool := false

/-- A flag that is read where it is there and never written. -/
def Json.Field.unwritten (name : String) : Field where
  name
  Value := Bool
  read := Codec.bool.read
  write _ := none
  absent := some false
  beyond := some false

def Entitlement.layout : Layout Entitlement where
  name := "Entitlement"
  fields := [.required "id" .text, .required "pool" Pool.layout.codec, .required "quantity" .u32,
    .optional "startDate" Moment.codec, .optional "endDate" Moment.codec,
    .defaulted "certificates" (Codec.list Certificate.layout.codec) [], .unwritten "dirty"]
  make := fun (id, pool, quantity, startDate, endDate, certificates, dirty, _) =>
    ⟨id, pool, quantity, startDate, endDate, certificates, dirty⟩
  parts e := (e.id, e.pool, e.quantity, e.startDate, e.endDate, e.certificates, e.dirty, ())

/-! ### Products -/

mutual

def Product.tree : Product → List Product
  | ⟨id, name, multiplier, attributes, provided, derived⟩ =>
    ⟨id, name, multiplier, attributes, provided, derived⟩ :: Product.trees provided

def Product.trees : List Product → List Product
  | [] => []
  | p :: ps => p.tree ++ Product.trees ps

end

def Entitlement.products (e : Entitlement) : List Product :=
  e.pool.product.tree ++ (e.pool.product.derived.map Product.tree).getD []

def addProduct (m : SortedMap String Product) (p : Product) : SortedMap String Product :=
  if m.contains p.id then m else m.insert p.id p

/-- Every product that the entitlements reach, by id; the first one with an id is kept. -/
def productClosure (es : List Entitlement) : SortedMap String Product :=
  (es.flatMap Entitlement.products).foldl addProduct ∅

end SignedManifest
