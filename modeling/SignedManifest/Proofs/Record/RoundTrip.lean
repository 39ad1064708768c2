import SignedManifest.Settings
import SignedManifest.Proofs.Record.Restoring
import SignedManifest.Proofs.Subscription.Restoring

/-!
All records that have a JSON form, with what their own texts decode to. A text may have its members
in the order of declaration or sorted by key. What nests too deep for the reader is refused; all else
comes back as it was, but for the flags of entitlements, which no text carries.
-/
namespace SignedManifest
open Json Codec

/-! ### Settings -/

theorem EntryNaming.faithful {d : Nat} : EntryNaming.codec.Faithful d
  | .flat => takes_choice rfl d
  | .relative => takes_choice rfl d

theorem Settings.faithful {d : Nat} : Settings.layout.codec.Faithful d := by
  have text (e : Nat) : (Codec.option .text).Faithful e := (faithful_text e).option filled_text
  have path (e : Nat) : Settings.pathCodec.Faithful e := (takes_textAs _ · e)
  have maybe (e : Nat) : (Codec.option Settings.pathCodec).Faithful e := (path e).option nofun
  exact Layout.faithful (by decide) (fun e _ => ⟨.defaulted (path e), .defaulted (text e),
    .defaulted (text e), .defaulted (faithful_text e), .defaulted (maybe e),
    .defaulted EntryNaming.faithful, .defaulted (maybe e)⟩) fun _ => rfl

def Subscription.Record.codec (fresh : String) : Codec Subscription.Record where
  read d := (Subscription.Draft.settle · fresh) <$> Subscription.Draft.layout.codec.read d
  write := Subscription.Record.json

/-! ### All types -/

inductive RecordType where
  | consumer
  | consumerRecord
  | consumerType
  | entitlement
  | pool
  | product
  | certificateSerial
  | certificate
  | productCertificate
  | distributorVersion
  | cdn
  | rules
  | manifestMeta
  | subscription
  | resolution
  | reconciliation
  | settings
  deriving DecidableEq, Repr

namespace RecordType

@[reducible] def Carrier : RecordType → Type
  | consumer => Consumer
  | consumerRecord => ConsumerRecord
  | consumerType => ConsumerType
  | entitlement => Entitlement
  | pool => Pool
  | product => Product
  | certificateSerial => CertificateSerial
  | certificate => Certificate
  | productCertificate => ProductCertificate
  | distributorVersion => DistributorVersion
  | cdn => Cdn
  | rules => Rules
  | manifestMeta => Meta
  | subscription => Subscription.Record
  | resolution => Subscription.Resolution
  | reconciliation => Subscription.Reconciliation
  | settings => Settings

/-- How a type stands in JSON; `fresh` is the id of a subscription record that has none. -/
def codec (fresh : String) : (t : RecordType) → Codec t.Carrier
  | consumer => Consumer.layout.codec
  | consumerRecord => ConsumerRecord.layout.codec
  | consumerType => ConsumerType.layout.codec
  | entitlement => Entitlement.layout.codec
  | pool => Pool.layout.codec
  | product => Product.codec
  | certificateSerial => CertificateSerial.layout.codec
  | certificate => Certificate.layout.codec
  | productCertificate => ProductCertificate.layout.codec
  | distributorVersion => DistributorVersion.layout.codec
  | cdn => Cdn.layout.codec
  | rules => Rules.layout.codec
  | manifestMeta => Meta.layout.codec
  | subscription => Subscription.Record.codec fresh
  | resolution => Subscription.Resolution.codec
  | reconciliation => Subscription.Reconciliation.codec
  | settings => Settings.layout.codec

def settled : (t : RecordType) → t.Carrier → t.Carrier
  | consumer, c => c.settled
  | entitlement, e => e.settled
  | _, v => v

theorem takes (fresh : String) (t : RecordType) (v : t.Carrier) (d : Nat) :
    (t.codec fresh).read.Takes d ((t.codec fresh).write v) (t.settled v) := by
  cases t with
  | consumer => exact Consumer.restores v
  | consumerRecord => exact ConsumerRecord.faithful v
  | consumerType => exact ConsumerType.faithful v
  | entitlement => exact Entitlement.restores v
  | pool => exact Pool.faithful v
  | product => exact Product.faithful v
  | certificateSerial => exact CertificateSerial.faithful v
  | certificate => exact Certificate.faithful v
  | productCertificate => exact ProductCertificate.faithful v
  | distributorVersion => exact DistributorVersion.faithful v
  | cdn => exact Cdn.faithful v
  | rules => exact Rules.faithful v
  | manifestMeta => exact Meta.faithful v
  | subscription =>
    have draft := @Subscription.Draft.faithful d ⟨v.toTerms, some v.id⟩
    exact draft.map (Subscription.Draft.settle · fresh)
  | resolution => exact Subscription.Resolution.faithful v
  | reconciliation => exact Subscription.Reconciliation.faithful v
  | settings => exact Settings.faithful v

theorem write_settled (fresh : String) (t : RecordType) (v : t.Carrier) :
    (t.codec fresh).write (t.settled v) = (t.codec fresh).write v := by
  cases t with
  | consumer => exact Consumer.json_settled v
  | entitlement => exact Entitlement.json_settled v
  | _ => rfl

/- Every record that a text can hold comes back from its text, in the order of declaration and with
sorted keys, with its entitlements settled; and only that is lost in the text. -/
theorem restored_from_text (fresh : String) (t : RecordType) :
    (∀ v : t.Carrier, ((t.codec fresh).write v).depth ≤ depthLimit →
      (t.codec fresh).Decodes ((t.codec fresh).write v) (t.settled v)) ∧
    ∀ v w : t.Carrier, t.settled v = t.settled w →
      (t.codec fresh).write v = (t.codec fresh).write w := by
  constructor
  · intro v fit
    exact (t.takes fresh v depthLimit).decodes fit
  · intro v w same
    rw [← t.write_settled fresh v, same, t.write_settled fresh w]

/- A consumer with a dirty entitlement comes back with a clean one, and is written like it. -/
theorem restored_from_text_dirty :
    let product : Product := { id := "5", name := "p" }
    let pool : Pool := { id := "1", product := product, quantity := 3 }
    let held : Entitlement := { id := "e", pool := pool, quantity := 1, dirty := true }
    let holder (e : Entitlement) : Consumer :=
      ⟨"u", "n", none, "o", ⟨"system", false⟩, none, none, [e]⟩
    ((consumer.codec "").write (holder held)).depth ≤ depthLimit ∧
      (consumer.codec "").Decodes ((consumer.codec "").write (holder held)) (holder held.settled) ∧
      (consumer.codec "").write (holder held) = (consumer.codec "").write (holder held.settled) := by
  intro product pool held holder
  have fit : ((consumer.codec "").write (holder held)).depth ≤ depthLimit := by decide
  obtain ⟨restored, alike⟩ := restored_from_text "" consumer
  exact ⟨fit, restored (holder held) fit, alike (holder held) (holder held.settled) rfl⟩

end RecordType
end SignedManifest
