import SignedManifest.Export.Source
import SignedManifest.Proofs.Json.Documents
import SignedManifest.Proofs.Moment

/-!
The records, read back from their JSON. Every type gives back what it was written from; entitlements
come back clean, for their flag is not written.
-/
namespace SignedManifest
open Json Codec

variable {d : Nat}

/-! ### Records without products -/

theorem CertificateSerial.faithful : CertificateSerial.layout.codec.Faithful d :=
  Layout.faithful (by decide) (fun e _ => ⟨.required (takes_u64 · e),
    .optional (Moment.codec_faithful e) Moment.codec_filled⟩) fun _ => rfl

theorem Certificate.faithful : Certificate.layout.codec.Faithful d :=
  Layout.faithful (by decide) (fun e _ => ⟨.required CertificateSerial.faithful,
    .required (faithful_text e), .required (faithful_text e)⟩) fun _ => rfl

theorem ProductCertificate.faithful : ProductCertificate.layout.codec.Faithful d :=
  Layout.faithful (by decide) (fun e _ => ⟨.required (faithful_text e),
    .required (faithful_text e)⟩) fun _ => rfl

theorem ConsumerType.faithful : ConsumerType.layout.codec.Faithful d :=
  Layout.faithful (by decide) (fun e _ => ⟨.required (faithful_text e),
    .defaulted (takes_bool · e)⟩) fun _ => rfl

theorem ConsumerRecord.faithful : ConsumerRecord.layout.codec.Faithful d :=
  Layout.faithful (by decide) (fun e _ => ⟨.required (faithful_text e), .required (faithful_text e),
    .optional (faithful_text e) filled_text, .required (faithful_text e),
    .required ConsumerType.faithful, .optional (faithful_text e) filled_text,
    .nullable (faithful_text e) filled_text, .nullable (faithful_text e) filled_text⟩) fun _ => rfl

theorem DistributorVersion.faithful : DistributorVersion.layout.codec.Faithful d :=
  Layout.faithful (by decide) (fun e _ => ⟨.required (faithful_text e), .required (faithful_text e),
    .defaulted (.list fun e _ => faithful_text e)⟩) fun _ => rfl

theorem Cdn.faithful : Cdn.layout.codec.Faithful d :=
  Layout.faithful (by decide) (fun e _ => ⟨.required (faithful_text e), .required (faithful_text e),
    .required (faithful_text e)⟩) fun _ => rfl

theorem Rules.faithful : Rules.layout.codec.Faithful d :=
  Layout.faithful (by decide) (fun e _ => ⟨.required (faithful_text e),
    .required (faithful_text e)⟩) fun _ => rfl

theorem Meta.faithful : Meta.layout.codec.Faithful d :=
  Layout.faithful (by decide) (fun e _ => ⟨.required (faithful_text e),
    .required (Moment.codec_faithful e), .required (faithful_text e),
    .nullable (faithful_text e) filled_text, .nullable (faithful_text e) filled_text⟩) fun _ => rfl

/-! ### Products -/

namespace Product

theorem listJson_eq (ps : List Product) : listJson ps = ps.map json := by
  induction ps with
  | nil => rfl
  | cons p ps ih => rw [listJson, ih, List.map_cons]

theorem json_eq (read : Reader Product) (p : Product) : json p = (layoutOver ⟨read, json⟩).json p := by
  obtain ⟨id, name, multiplier, attributes, provided, derived⟩ := p
  cases multiplier <;> cases derived <;>
    simp [json, layoutOver, Layout.json, Values.members, Field.required, Field.optional,
      Field.defaulted, listJson_eq, derivedMembers, Codec.text, textAs, Codec.list]

theorem filled (read : Reader Product) : Codec.Filled ⟨read, json⟩ := by
  intro p
  simp [json_eq read, Layout.json]

theorem field_names (inner : Codec Product) : (layoutOver inner).fields.map Field.name =
    ["id", "name", "multiplier", "attributes", "providedProducts", "derivedProduct"] := rfl

theorem fields_distinct (inner : Codec Product) :
    ((layoutOver inner).fields.map Field.name).Nodup := by
  rw [field_names]
  decide

theorem make_parts (inner : Codec Product) (p : Product) :
    (layoutOver inner).make ((layoutOver inner).parts p) = p := by
  cases p
  rfl

/- The induction is on the rounds; one is spent on every level that the reader goes down. -/
theorem readNested_takes {n : Nat} (deep : d < n) (p : Product) :
    (readNested n).Takes d p.json p := by
  induction n generalizing d p with
  | zero => exact absurd deep (Nat.not_lt_zero d)
  | succ n ih =>
    have inner (e : Nat) (less : e < d) : Codec.Faithful ⟨readNested n, json⟩ e :=
      ih (Nat.lt_of_lt_of_le less (Nat.le_of_lt_succ deep))
    have faithful : (layoutOver ⟨readNested n, json⟩).codec.Faithful d :=
      Layout.faithful (fields_distinct _) (fun e less => ⟨.required (faithful_text e),
        .required (faithful_text e), .optional (takes_i64 · e) nofun,
        .defaulted (.map fun e _ => faithful_text e),
        .defaulted (.list fun i lower => inner i (Nat.lt_trans lower less)),
        .optional (inner e less) (filled _)⟩) (make_parts _)
    rw [json_eq (readNested n)]
    exact faithful p

theorem faithful : Product.codec.Faithful d := by
  intro p form arranges rest closed
  exact readNested_takes (Nat.lt_succ_self d) p form arranges rest closed

end Product

theorem Pool.faithful : Pool.layout.codec.Faithful d :=
  Layout.faithful (by decide) (fun e _ => ⟨.required (faithful_text e), .required Product.faithful,
    .required (takes_i64 · e), .optional (faithful_text e) filled_text,
    .optional (faithful_text e) filled_text, .optional (faithful_text e) filled_text,
    .optional (faithful_text e) filled_text, .optional (faithful_text e) filled_text,
    .optional (faithful_text e) filled_text, .defaulted (.map fun e _ => faithful_text e)⟩)
    fun _ => rfl

/-! ### Entitlements and their holders -/

def Entitlement.settled (e : Entitlement) : Entitlement := { e with dirty := false }

def Consumer.settled (c : Consumer) : Consumer :=
  { c with entitlements := c.entitlements.map Entitlement.settled }

theorem Entitlement.restores (e : Entitlement) :
    layout.codec.read.Takes d (layout.codec.write e) e.settled := by
  have take (k : Nat) : Values.Take k layout.fields (layout.parts e) (layout.parts e.settled) := by
    have id : (Field.required "id" .text).Faithful k := .required (faithful_text k)
    have pool : (Field.required "pool" Pool.layout.codec).Faithful k := .required Pool.faithful
    have quantity : (Field.required "quantity" .u32).Faithful k := .required (takes_u32 · k)
    have date (name : String) : (Field.optional name Moment.codec).Faithful k :=
      .optional (Moment.codec_faithful k) Moment.codec_filled
    have certificates :
        (Field.defaulted "certificates" (.list Certificate.layout.codec) []).Faithful k :=
      .defaulted (.list fun _ _ => Certificate.faithful)
    exact ⟨id _, pool _, quantity _, date _ _, date _ _, certificates _, rfl, trivial⟩
  exact Layout.takes (by decide) (fun k _ => take k) rfl

theorem Entitlement.json_settled (e : Entitlement) : layout.json e.settled = layout.json e := rfl

theorem Consumer.restores (c : Consumer) :
    layout.codec.read.Takes d (layout.codec.write c) c.settled := by
  have take (k : Nat) : Values.Take k layout.fields (layout.parts c) (layout.parts c.settled) := by
    have text (name : String) : (Field.required name .text).Faithful k :=
      .required (faithful_text k)
    have maybe (name : String) : (Field.optional name .text).Faithful k :=
      .optional (faithful_text k) filled_text
    have type : (Field.required "type" ConsumerType.layout.codec).Faithful k :=
      .required ConsumerType.faithful
    have idCert : (Field.optional "idCert" Certificate.layout.codec).Faithful k :=
      .optional Certificate.faithful (filled_layout _)
    have entitlements : (Field.defaulted "entitlements" (.list Entitlement.layout.codec) []).Takes k
        c.entitlements (c.entitlements.map Entitlement.settled) :=
      takes_list fun _ _ e _ => e.restores
    exact ⟨text _ _, text _ _, maybe _ _, text _ _, type _, maybe _ _, idCert _, entitlements,
      trivial⟩
  exact Layout.takes (by decide) (fun k _ => take k) rfl

theorem Consumer.json_settled (c : Consumer) : layout.json c.settled = layout.json c := by
  have same : (Codec.list Entitlement.layout.codec).write (c.entitlements.map Entitlement.settled) =
      (Codec.list Entitlement.layout.codec).write c.entitlements := by
    simp only [Codec.list, List.map_map]
    rfl
  have written : Values.members layout.fields (layout.parts c.settled) =
      Values.members layout.fields (layout.parts c) := by
    simp only [layout, Values.members, Consumer.settled, Field.defaulted, same]
  exact congrArg Json.obj written

end SignedManifest
