import SignedManifest.Archive.Package
import SignedManifest.Export.Roster
import SignedManifest.Settings
/-!
Exports: a fresh work area, the steps of the roster on an empty tree in it, and the archives. The
first failure ends an export and leaves the work area as it is then.
-/
namespace SignedManifest

structure Exporter where
  settings : Settings
  source : Source
  rules : ExportRules
  signer : Signer
  principal : String

inductive Scope where
  /-- Everything, with a label for the content delivery network and URLs that go over the settings. -/
  | full (cdn web api : Option String)
  /-- The certificates alone, whatever the rules say; all of them or those with given serials. -/
  | certificates (serials : Option Serials)

namespace Exporter

def treeName : String := "export"

def areaStem : String := "export"

open Roster

def plan (x : Exporter) (consumer : Consumer) (entitlements : List Entitlement) (now : Moment) :
    Scope → Plan
  | .full cdn web api =>
    metaPlan ⟨x.settings.version, now, x.principal, none, cdn⟩ ++
      consumerPlan (.ofConsumer consumer (resolveUrl web x.settings.prefixWebUrl)
        (resolveUrl api x.settings.prefixApiUrl)) ++
      identityPlan consumer.idCert ++
      entitlementsPlan x.rules entitlements ++
      certificatesPlan ⟨none, some x.rules⟩ entitlements ++
      productsPlan x.source consumer.ownerKey entitlements ++
      onLookup (loading "consumer types") x.source.consumerTypes consumerTypesPlan ++
      onLookup (loading "rules") x.source.rules
        (rulesPlan · (.ofOverride x.settings.legacyRulesPath)) ++
      onLookup (loading "distributor versions") x.source.distributorVersions
        distributorVersionsPlan ++
      onLookup (loading "content delivery networks") x.source.cdns cdnsPlan
  | .certificates serials =>
    metaPlan ⟨x.settings.version, now, x.principal, none, none⟩ ++
      certificatesPlan ⟨serials, none⟩ entitlements ++
      onLookup (loading "content access certificate") (x.source.contentAccessCertificate consumer)
        contentAccessPlan

def makeArea (d : Disk) (workDir : String) : List String → Except ExportError (String × Disk)
  | [] => .error (.io workDir (.other "too many temporary files exist"))
  | name :: rest =>
    let area := Path.join workDir name
    match d.makeDir area with
    | .ok made => .ok (area, made)
    | .error .occupied => makeArea d workDir rest
    | .error e => .error (.io workDir (.other (e.text ++ " at path " ++ Text.quoted area)))

/-- A new work area, with the directories above it as far as they were missing. `names` are the
names to try. -/
def openArea (d : Disk) (workDir : String) (names : List String) :
    Except ExportError String × Disk :=
  match d.makeDirAll workDir with
  | (.error e, d) => (.error (.io workDir e), d)
  | (.ok (), d) =>
    let absolute := if Path.isAbsolute workDir then workDir
      else Path.join ("/" ++ "/".intercalate d.current) workDir
    match makeArea d absolute names with
    | .error e => (.error e, d)
    | .ok (area, d) => (.ok area, d)

/-- Exports a consumer as of `now`. The answer is the path of the signed archive. -/
def run (x : Exporter) (consumer : Consumer) (scope : Scope) (now : Moment) (names : List String)
    (d : Disk) : Except ExportError String × Disk :=
  match openArea d x.settings.workDir names with
  | (.error e, d) => (.error e, d)
  | (.ok area, d) =>
    match x.source.entitlements consumer with
    | .error cause => (.error (.source ("entitlements of " ++ consumer.uuid) cause), d)
    | .ok entitlements =>
      let tree := Path.join area treeName
      match (x.plan consumer entitlements now scope).run tree d with
      | (.error e, d) => (.error e, d)
      | (.ok (), d) => package consumer.uuid area tree x.settings.entryNaming x.signer d

def describe (x : Exporter) : String :=
  "Exporter \x7b config: " ++ x.settings.describe ++ ", principal: " ++ Text.quoted x.principal ++
    ", .. \x7d"

end Exporter

end SignedManifest
