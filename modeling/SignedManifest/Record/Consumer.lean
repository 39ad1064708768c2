import SignedManifest.Record.Entitlement
/-!
Consumers: registered systems and distributors that hold entitlements, and the view of one that a
manifest carries.
-/
namespace SignedManifest

open Json

structure ConsumerType where
  label : String
  manifest : Bool := false
  deriving DecidableEq, Repr

def ConsumerType.layout : Layout ConsumerType where
  name := "ConsumerType"
  fields := [.required "label" .text, .defaulted "manifest" .bool false]
  make := fun (label, manifest, _) => ⟨label, manifest⟩
  parts t := (t.label, t.manifest, ())

structure Consumer where
  uuid : String
  name : String
  username : Option String := none
  ownerKey : String
  type : ConsumerType
  contentAccessMode : Option String := none
  idCert : Option Certificate := none
  entitlements : List Entitlement := []

def Consumer.layout : Layout Consumer where
  name := "Consumer"
  fields := [.required "uuid" .text, .required "name" .text, .optional "username" .text,
    .required "ownerKey" .text, .required "type" ConsumerType.layout.codec,
    .optional "contentAccessMode" .text, .optional "idCert" Certificate.layout.codec,
    .defaulted "entitlements" (Codec.list Entitlement.layout.codec) []]
  make := fun (uuid, name, username, ownerKey, type, mode, idCert, entitlements, _) =>
    ⟨uuid, name, username, ownerKey, type, mode, idCert, entitlements⟩
  parts c := (c.uuid, c.name, c.username, c.ownerKey, c.type, c.contentAccessMode, c.idCert,
    c.entitlements, ())

structure ConsumerRecord where
  uuid : String
  name : String
  username : Option String
  ownerKey : String
  type : ConsumerType
  contentAccessMode : Option String
  urlWeb : Option String
  urlApi : Option String
  deriving DecidableEq, Repr

namespace ConsumerRecord

def layout : Layout ConsumerRecord where
  name := "ConsumerRecord"
  fields := [.required "uuid" .text, .required "name" .text, .optional "username" .text,
    .required "ownerKey" .text, .required "type" ConsumerType.layout.codec,
    .optional "contentAccessMode" .text, .nullable "urlWeb" .text, .nullable "urlApi" .text]
  make := fun (uuid, name, username, ownerKey, type, mode, urlWeb, urlApi, _) =>
    ⟨uuid, name, username, ownerKey, type, mode, urlWeb, urlApi⟩
  parts c := (c.uuid, c.name, c.username, c.ownerKey, c.type, c.contentAccessMode, c.urlWeb,
    c.urlApi, ())

def ofConsumer (c : Consumer) (urlWeb urlApi : Option String) : ConsumerRecord :=
  ⟨c.uuid, c.name, c.username, c.ownerKey, c.type, c.contentAccessMode, urlWeb, urlApi⟩

end ConsumerRecord

end SignedManifest
