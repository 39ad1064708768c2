import SignedManifest.Json.Layout
import SignedManifest.Moment
/-!
The small records around a consumer: distributor versions, content delivery networks, the rule set
and the description of the manifest itself.
-/
namespace SignedManifest

open Json

structure DistributorVersion where
  name : String
  displayName : String
  capabilities : List String := []
  deriving DecidableEq, Repr

def DistributorVersion.layout : Layout DistributorVersion where
  name := "DistributorVersion"
  fields := [.required "name" .text, .required "displayName" .text,
    .defaulted "capabilities" (Codec.list .text) []]
  make := fun (name, displayName, capabilities, _) => ⟨name, displayName, capabilities⟩
  parts v := (v.name, v.displayName, v.capabilities, ())

structure Cdn where
  label : String
  name : String
  url : String
  deriving DecidableEq, Repr

def Cdn.layout : Layout Cdn where
  name := "Cdn"
  fields := [.required "label" .text, .required "name" .text, .required "url" .text]
  make := fun (label, name, url, _) => ⟨label, name, url⟩
  parts c := (c.label, c.name, c.url, ())

structure Rules where
  version : String := ""
  rules : String := ""
  deriving DecidableEq, Repr

def Rules.layout : Layout Rules where
  name := "Rules"
  fields := [.required "version" .text, .required "rules" .text]
  make := fun (version, rules, _) => ⟨version, rules⟩
  parts r := (r.version, r.rules, ())

structure Meta where
  version : String
  created : Moment
  principalName : String
  webAppPrefix : Option String
  cdnLabel : Option String
  deriving DecidableEq, Repr

def Meta.layout : Layout Meta where
  name := "Meta"
  fields := [.required "version" .text, .required "created" Moment.codec,
    .required "principalName" .text, .nullable "webAppPrefix" .text, .nullable "cdnLabel" .text]
  make := fun (version, created, principal, webAppPrefix, cdnLabel, _) =>
    ⟨version, created, principal, webAppPrefix, cdnLabel⟩
  parts m := (m.version, m.created, m.principalName, m.webAppPrefix, m.cdnLabel, ())

end SignedManifest
