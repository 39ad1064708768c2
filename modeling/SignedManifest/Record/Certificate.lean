import SignedManifest.Json.Layout
import SignedManifest.Moment
/-!
Certificates: the PEM text with its private key, and the bare certificate of a product.
-/
namespace SignedManifest

open Json

structure CertificateSerial where
  id : UInt64
  expiration : Option Moment := none
  deriving DecidableEq, Repr

def CertificateSerial.layout : Layout CertificateSerial where
  name := "CertificateSerial"
  fields := [.required "id" .u64, .optional "expiration" Moment.codec]
  make := fun (id, expiration, _) => ⟨id, expiration⟩
  parts s := (s.id, s.expiration, ())

structure Certificate where
  serial : CertificateSerial
  cert : String
  key : String
  deriving DecidableEq, Repr

namespace Certificate

def layout : Layout Certificate where
  name := "Certificate"
  fields := [.required "serial" CertificateSerial.layout.codec, .required "cert" .text,
    .required "key" .text]
  make := fun (serial, cert, key, _) => ⟨serial, cert, key⟩
  parts c := (c.serial, c.cert, c.key, ())

def ofSerial (serial : UInt64) (cert key : String) : Certificate := ⟨⟨serial, none⟩, cert, key⟩

end Certificate

structure ProductCertificate where
  productId : String
  cert : String
  deriving DecidableEq, Repr

def ProductCertificate.layout : Layout ProductCertificate where
  name := "ProductCertificate"
  fields := [.required "productId" .text, .required "cert" .text]
  make := fun (productId, cert, _) => ⟨productId, cert⟩
  parts c := (c.productId, c.cert, ())

end SignedManifest
