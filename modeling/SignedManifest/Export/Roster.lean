import SignedManifest.Record.Entitlement
import SignedManifest.Export.LegacyRules
import SignedManifest.Export.Plan
import SignedManifest.Export.Source
/-!
The steps of an export, each the plan for one kind of record. A step names every file after a stable
attribute of its record and keeps to its own directory of the export tree.
-/
namespace SignedManifest

abbrev Serials := SortedMap UInt64 Unit

def Serials.ofList (l : List UInt64) : Serials := SortedMap.ofList (l.map (·, ()))

structure CertificateFilter where
  /-- Only certificates with these serials, or all. -/
  serials : Option Serials := none
  /-- Only certificates of entitlements that may leave the server, or of all. -/
  rules : Option ExportRules := none

namespace CertificateFilter

def allowsEntitlement (f : CertificateFilter) (e : Entitlement) : Bool := f.rules.all (· e)

def allowsSerial (f : CertificateFilter) (serial : UInt64) : Bool :=
  f.serials.all (·.contains serial)

def select (f : CertificateFilter) (es : List Entitlement) : List Certificate :=
  (es.filter f.allowsEntitlement).flatMap fun e =>
    e.certificates.filter fun c => f.allowsSerial c.serial.id

def describe (f : CertificateFilter) : String :=
  let serials :=
    match f.serials with
    | none => "None"
    | some s => "Some(\x7b" ++ ", ".intercalate (s.keys.map toString) ++ "\x7d)"
  "CertificateFilter \x7b serials: " ++ serials ++ ", rules: " ++ toString f.rules.isSome ++ " \x7d"

end CertificateFilter

/-- A URL: an override that is not blank, or else a configured one that is not blank. -/
def resolveUrl (override configured : Option String) : Option String :=
  let filled (s : String) : Bool := !s.toList.all Text.isBlank
  (override.filter filled).or (configured.filter filled)

namespace Roster

def onLookup {α : Type} (context : String) (result : Except String α) (f : α → Plan) : Plan :=
  match result with
  | .ok a => f a
  | .error cause => [.fail (.source context cause)]

def loading (what : String) : String := "failed to load " ++ what

def pemAction (dir : String) (c : Certificate) : Action :=
  .record dir (toString c.serial.id.toNat) "pem" (.pemPair c.cert c.key)

def metaPlan (m : Meta) : Plan := [.write ["meta.json"] (.ofRecord (Meta.layout.json m))]

def consumerPlan (c : ConsumerRecord) : Plan :=
  [.write ["consumer.json"] (.ofRecord (ConsumerRecord.layout.json c))]

def identityPlan (cert : Option Certificate) : Plan :=
  cert.toList.map fun c => .record "upstream_consumer" (toString c.serial.id.toNat) "json"
    (.ofRecord (Certificate.layout.json c))

/-- The entitlements that the rules accept; the first dirty one ends the export, accepted or not. -/
def entitlementsPlan (rules : ExportRules) : List Entitlement → Plan
  | [] => []
  | e :: es =>
    if e.dirty then [.fail (.dirtyEntitlement e.id)]
    else if rules e then
      .record "entitlements" e.id "json" (.ofRecord (Entitlement.layout.json e)) ::
        entitlementsPlan rules es
    else entitlementsPlan rules es

def certificatesPlan (f : CertificateFilter) (es : List Entitlement) : Plan :=
  (f.select es).map (pemAction "entitlement_certificates")

def contentAccessPlan (cert : Option Certificate) : Plan :=
  cert.toList.map (pemAction "content_access_certificates")

/-- A product, and its certificate where it is an engineering product that has one. -/
def productPlan (source : Source) (owner : String) (p : Product) : Plan :=
  .record "products" p.id "json" (.ofRecord p.json) ::
    if p.isEngineering then
      onLookup ("product certificate " ++ p.id) (source.productCertificate owner p.id) fun cert =>
        cert.toList.map fun c => .record "products" p.id "pem" (.text [c.cert])
    else []

def productsPlan (source : Source) (owner : String) (es : List Entitlement) : Plan :=
  (productClosure es).values.flatMap (productPlan source owner)

def consumerTypesPlan (ts : List ConsumerType) : Plan :=
  ts.map fun t => .record "consumer_types" t.label "json" (.ofRecord (ConsumerType.layout.json t))

def distributorVersionsPlan (vs : List DistributorVersion) : Plan :=
  vs.map fun v =>
    .record "distributor_version" v.name "json" (.ofRecord (DistributorVersion.layout.json v))

def cdnsPlan (cs : List Cdn) : Plan :=
  cs.map fun c => .record "content_delivery_network" c.label "json" (.ofRecord (Cdn.layout.json c))

def rulesPlan (rules : Rules) (legacy : LegacyRules) : Plan :=
  let place := ["rules", "default-rules.js"]
  [.write ["rules2", "rules.js"] (.text [rules.rules]),
    match legacy with
    | .bundled => .write place (.text [LegacyRules.bundledText])
    | .file path => .copy path place]

end Roster

end SignedManifest
