import SignedManifest.Record.Consumer
import SignedManifest.Record.Reference
/-!
Where an export takes its records from, any lookup of which may fail with a message, and the rules
that say which entitlements may leave the server. A snapshot is a consumer with the state of the server
around it, as one JSON document.
-/
namespace SignedManifest

open Json

structure Snapshot where
  consumer : Consumer
  consumerTypes : List ConsumerType := []
  distributorVersions : List DistributorVersion := []
  cdns : List Cdn := []
  rules : Rules := {}
  /-- Product certificates by product id. -/
  productCertificates : SortedMap String ProductCertificate := ∅
  contentAccessCertificate : Option Certificate := none

def Snapshot.layout : Layout Snapshot where
  name := "Snapshot"
  fields := [.required "consumer" Consumer.layout.codec,
    .defaulted "consumerTypes" (Codec.list ConsumerType.layout.codec) [],
    .defaulted "distributorVersions" (Codec.list DistributorVersion.layout.codec) [],
    .defaulted "cdns" (Codec.list Cdn.layout.codec) [],
    .defaulted "rules" Rules.layout.codec {},
    .defaulted "productCertificates" (Codec.map ProductCertificate.layout.codec) ∅,
    .optional "contentAccessCertificate" Certificate.layout.codec]
  make := fun (consumer, types, versions, cdns, rules, certificates, content, _) =>
    ⟨consumer, types, versions, cdns, rules, certificates, content⟩
  parts s := (s.consumer, s.consumerTypes, s.distributorVersions, s.cdns, s.rules,
    s.productCertificates, s.contentAccessCertificate, ())

structure Source where
  entitlements : Consumer → Except String (List Entitlement)
  consumerTypes : Except String (List ConsumerType)
  distributorVersions : Except String (List DistributorVersion)
  cdns : Except String (List Cdn)
  rules : Except String Rules
  /-- The certificate of a product for an owner, if one is issued. -/
  productCertificate : (owner product : String) → Except String (Option ProductCertificate)
  /-- The certificate of owners in content access mode. -/
  contentAccessCertificate : Consumer → Except String (Option Certificate)

/-- A snapshot knows the entitlements of its own consumer. -/
def Snapshot.source (s : Snapshot) : Source where
  entitlements c :=
    if c.uuid = s.consumer.uuid then .ok s.consumer.entitlements
    else .error ("consumer " ++ c.uuid ++ " is not part of this snapshot")
  consumerTypes := .ok s.consumerTypes
  distributorVersions := .ok s.distributorVersions
  cdns := .ok s.cdns
  rules := .ok s.rules
  productCertificate _ product := .ok (s.productCertificates.get? product)
  contentAccessCertificate _ := .ok s.contentAccessCertificate

abbrev ExportRules := Entitlement → Bool

namespace ExportRules

def allowAll : ExportRules := fun _ => true

/-- Entitlements of derived pools stay on the server that derived them. -/
def skipDerivedPools : ExportRules := fun e => !e.pool.isDerived

end ExportRules

end SignedManifest
