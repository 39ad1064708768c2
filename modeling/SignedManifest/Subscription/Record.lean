import SignedManifest.Digest.Sha256
import SignedManifest.Json.Layout
/-!
Subscription records: the terms that an upstream server states, and the local id that the record
goes by here. A record that is read without an id waits for a fresh one: a hundred and twenty-two bits
that nobody can guess, in the usual five groups of hexadecimal digits.
-/
namespace SignedManifest.Subscription

open Json

structure Terms where
  upstreamPoolId : Option String := none
  upstreamEntitlementId : Option String := none
  upstreamConsumerId : Option String := none
  quantity : Int64
  deriving DecidableEq, Repr

namespace Terms

/-- An empty id counts as none. -/
def present (id : Option String) : Option String := id.filter (· ≠ "")

/-- Records with different pools have nothing to do with each other. -/
def group (t : Terms) : Option String := present t.upstreamPoolId

def identity (t : Terms) : Option (String × String) := do
  return (← present t.upstreamEntitlementId, ← present t.upstreamConsumerId)

end Terms

structure Record extends Terms where
  id : String
  deriving DecidableEq, Repr

structure Draft extends Terms where
  id : Option String
  deriving DecidableEq, Repr

def Draft.idField : Field where
  name := "id"
  Value := Option String
  read depth := some <$> Codec.text.read depth
  write id := id.map .str
  absent := some none
  beyond := some none

def Draft.layout : Layout Draft where
  name := "SubscriptionRecord"
  fields := [Draft.idField, .defaulted "upstreamPoolId" (Codec.option .text) none,
    .defaulted "upstreamEntitlementId" (Codec.option .text) none,
    .defaulted "upstreamConsumerId" (Codec.option .text) none, .required "quantity" .i64]
  make := fun (id, pool, entitlement, consumer, quantity, _) =>
    ⟨⟨pool, entitlement, consumer, quantity⟩, id⟩
  parts d := (d.id, d.upstreamPoolId, d.upstreamEntitlementId, d.upstreamConsumerId, d.quantity, ())

def Draft.settle (d : Draft) (fresh : String) : Record := ⟨d.toTerms, d.id.getD fresh⟩

/-- The records of a batch; the draft at an index gets the fresh id of that index. -/
def Draft.settleAll (fresh : Nat → String) (ds : List Draft) : List Record :=
  ds.zipIdx.map fun (d, i) => d.settle (fresh i)

namespace Record

def json (r : Record) : Json := Draft.layout.json ⟨r.toTerms, some r.id⟩

def ofPool (id pool : String) (quantity : Int64) : Record := ⟨⟨some pool, none, none, quantity⟩, id⟩

def withUpstream (r : Record) (entitlement consumer : String) : Record :=
  { r with upstreamEntitlementId := some entitlement, upstreamConsumerId := some consumer }

end Record

/-! ### Fresh ids -/

/-- The id that sixteen bytes give. Six bits say that the others are random. -/
def idOfBytes (bytes : List UInt8) : String :=
  let marked := bytes.zipIdx.map fun (b, i) =>
    if i = 6 then b &&& 0x0f ||| 0x40 else if i = 8 then b &&& 0x3f ||| 0x80 else b
  "-".intercalate ([(0, 4), (4, 2), (6, 2), (8, 2), (10, 6)].map fun (start, length) =>
    Text.hexOfBytes ((marked.drop start).take length))

def idOfSeed (seed : ByteArray) (n : Nat) : String :=
  idOfBytes ((Sha256.digest (seed ++ (toString n).toUTF8)).take 16)

end SignedManifest.Subscription
