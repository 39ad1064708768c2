import SignedManifest.Proofs.Json.Accepting
import SignedManifest.Proofs.Record.RoundTrip

/-!
How deep records nest. Products stand inside each other without end; a product is written with its
attributes and its provided products even where its text left them out, so the written form of a
record that was read may nest one level deeper than its text did, and too deep to be read again.
-/
namespace SignedManifest
open Json Codec

/-! ### Records without products -/

theorem Moment.codec_within (n : Nat) : Moment.codec.Within n := fun _ => Nat.zero_le n

theorem CertificateSerial.within : CertificateSerial.layout.codec.Within 1 :=
  Layout.within ⟨.required fun _ => Nat.le_refl 0, .optional (Moment.codec_within 0)⟩

theorem Certificate.within : Certificate.layout.codec.Within 2 :=
  Layout.within ⟨.required CertificateSerial.within, .required (within_text 1),
    .required (within_text 1)⟩

theorem ProductCertificate.within : ProductCertificate.layout.codec.Within 1 :=
  Layout.within ⟨.required (within_text 0), .required (within_text 0)⟩

theorem ConsumerType.within : ConsumerType.layout.codec.Within 1 :=
  Layout.within ⟨.required (within_text 0), .defaulted fun _ => Nat.le_refl 0⟩

theorem ConsumerRecord.within : ConsumerRecord.layout.codec.Within 2 :=
  Layout.within ⟨.required (within_text 1), .required (within_text 1), .optional (within_text 1),
    .required (within_text 1), .required ConsumerType.within, .optional (within_text 1),
    .nullable (within_text 1), .nullable (within_text 1)⟩

theorem DistributorVersion.within : DistributorVersion.layout.codec.Within 2 :=
  Layout.within ⟨.required (within_text 1), .required (within_text 1),
    .defaulted (within_text 0).list⟩

theorem Cdn.within : Cdn.layout.codec.Within 1 :=
  Layout.within ⟨.required (within_text 0), .required (within_text 0), .required (within_text 0)⟩

theorem Rules.within : Rules.layout.codec.Within 1 :=
  Layout.within ⟨.required (within_text 0), .required (within_text 0)⟩

theorem Meta.within : Meta.layout.codec.Within 1 :=
  Layout.within ⟨.required (within_text 0), .required (Moment.codec_within 0),
    .required (within_text 0), .nullable (within_text 0), .nullable (within_text 0)⟩

theorem Settings.within : Settings.layout.codec.Within 1 :=
  have path : Settings.pathCodec.Within 0 := fun _ => Nat.le_refl 0
  Layout.within ⟨.defaulted path, .defaulted (within_text 0).option,
    .defaulted (within_text 0).option, .defaulted (within_text 0), .defaulted path.option,
    .defaulted fun _ => Nat.le_refl 0, .defaulted path.option⟩

namespace Subscription

theorem Record.within (fresh : String) : (Record.codec fresh).Within 1 := by
  have id : Draft.idField.Within 0 := by
    intro id j written
    obtain ⟨t, _, rfl⟩ := Option.map_eq_some_iff.mp written
    exact Nat.le_refl 0
  have draft : Draft.layout.codec.Within 1 :=
    Layout.within ⟨id, .defaulted (within_text 0).option, .defaulted (within_text 0).option,
      .defaulted (within_text 0).option, .required fun _ => Nat.le_refl 0⟩
  exact fun r => draft ⟨r.toTerms, some r.id⟩

theorem Resolution.within : Resolution.codec.Within 1
  | .inherited _ _ => Nat.le_refl 1
  | .new _ => Nat.le_refl 1

theorem Reconciliation.within : Reconciliation.codec.Within 2 :=
  fun r => Resolution.within.list r.resolutions

end Subscription

/-! ### Products and what holds them -/

variable {d : Nat}

theorem attributes_bounded (name : String) :
    (Field.defaulted name (Codec.map .text) ∅).Bounded d :=
  Field.Within.bounded (.defaulted (within_text 0).map) (Nat.succ_le_succ (Nat.zero_le d))

namespace Product

/- The induction is on the rounds. -/
theorem readNested_bounded (n d : Nat) : Codec.Bounded ⟨readNested n, json⟩ d := by
  induction n generalizing d with
  | zero => exact fun _ _ _ ran => by cases ran
  | succ n ih =>
    have provided (e : Nat) :
        (Field.defaulted "providedProducts" (Codec.list ⟨readNested n, json⟩) []).Bounded e :=
      .defaulted (.list fun i _ => ih i) (Nat.succ_le_succ (Nat.zero_le e))
    have multiplier (e : Nat) : (Field.optional "multiplier" .i64).Bounded e :=
      .optional fun _ _ _ _ => Nat.zero_le (e + 1)
    have bounded : (layoutOver ⟨readNested n, json⟩).codec.Bounded d :=
      Layout.bounded (fun e _ => ⟨.required bounded_text, .required bounded_text, multiplier e,
        attributes_bounded "attributes", provided e, .optional (ih e)⟩) fun _ => rfl
    intro s p t ran
    have deep : ((layoutOver ⟨readNested n, json⟩).json p).depth ≤ d + 1 := bounded s p t ran
    rwa [← json_eq (readNested n)] at deep

theorem bounded : Product.codec.Bounded d := by
  intro s p t ran
  have nested : readNested (d + 1) d s = .ok (p, t) := ran
  have deep : (json p).depth ≤ d + 1 := readNested_bounded (d + 1) d s p t nested
  exact deep

def chain : Nat → Product
  | 0 => { id := "p", name := "p" }
  | k + 1 => { id := "p", name := "p", derived := some (chain k) }

/-- The chain as a text may spell it that leaves out all that goes without saying. -/
def sparse : Nat → Json
  | 0 => .obj [("id", .str "p"), ("name", .str "p")]
  | k + 1 => .obj [("id", .str "p"), ("name", .str "p"), ("derivedProduct", sparse k)]

theorem sparse_depth (k : Nat) : (sparse k).depth = k + 1 := by
  induction k with
  | zero => rfl
  | succ k ih => simp [sparse, depth, membersDepth, ih]

theorem chain_depth (k : Nat) : (json (chain k)).depth = k + 2 := by
  induction k with
  | zero => rfl
  | succ k ih =>
    have empty : ((Codec.map .text).write (∅ : SortedMap String String)).depth = 1 := rfl
    simp [chain, json, derivedMembers, depth, membersDepth, itemsDepth, ih, listJson, empty]

theorem sparse_filled (k : Nat) : sparse k ≠ .null := by
  cases k <;> simp [sparse]

/- The induction is on the products inside each other. -/
theorem readNested_takes_sparse (k : Nat) {n : Nat} (deep : d < n) :
    (readNested n).Takes d (sparse k) (chain k) := by
  induction k generalizing n d with
  | zero =>
    obtain ⟨n, rfl⟩ := Nat.exists_eq_add_one.mpr (Nat.zero_lt_of_lt deep)
    have given (e : Nat) : Values.Given e [("id", .str "p"), ("name", .str "p")]
        (layoutOver ⟨readNested n, json⟩).fields ((layoutOver ⟨readNested n, json⟩).parts (chain 0)) :=
      ⟨takes_textAs _ "p" e, takes_textAs _ "p" e, rfl, rfl, rfl, rfl, trivial⟩
    exact Layout.takes_members (fields_distinct _) (by simp) (by simp [field_names]) fun e _ => given e
  | succ k ih =>
    obtain ⟨n, rfl⟩ := Nat.exists_eq_add_one.mpr (Nat.zero_lt_of_lt deep)
    have given (e : Nat) (less : e < d) : Values.Given e
        [("id", .str "p"), ("name", .str "p"), ("derivedProduct", sparse k)]
        (layoutOver ⟨readNested n, json⟩).fields
        ((layoutOver ⟨readNested n, json⟩).parts (chain (k + 1))) := by
      have inner : (readNested n).Takes e (sparse k) (chain k) := ih (by omega)
      exact ⟨takes_textAs _ "p" e, takes_textAs _ "p" e, rfl, rfl, rfl,
        takes_some (sparse_filled k) inner, trivial⟩
    exact Layout.takes_members (fields_distinct _) (by simp) (by simp [field_names]) given

theorem takes_sparse (k d : Nat) : Product.codec.read.Takes d (sparse k) (chain k) := by
  intro form arranges rest closed
  exact readNested_takes_sparse k (Nat.lt_succ_self d) form arranges rest closed

theorem sparse_accepted {k : Nat} (room : k < depthLimit) :
    Product.codec.decode (sparse k).text.toUTF8 = .ok (chain k) := by
  have fit : (sparse k).depth ≤ depthLimit := by rwa [sparse_depth]
  exact ((takes_sparse k depthLimit).decodes fit).1

theorem chain_refused {k : Nat} (deep : depthLimit < k + 2) : Product.codec.Refuses (json (chain k)) := by
  have beyond : depthLimit < (json (chain k)).depth := by rwa [chain_depth]
  exact Reader.Takes.refuses (Product.faithful (chain k)) beyond

end Product

theorem Pool.bounded : Pool.layout.codec.Bounded d := by
  have maybe (name : String) (e : Nat) : (Field.optional name .text).Bounded e :=
    .optional bounded_text
  exact Layout.bounded (fun e _ => ⟨.required bounded_text, .required Product.bounded,
    .required fun _ _ _ _ => Nat.zero_le (e + 1), maybe _ e, maybe _ e, maybe _ e, maybe _ e,
    maybe _ e, maybe _ e, attributes_bounded "attributes"⟩) fun _ => rfl

theorem Certificate.bounded : Certificate.layout.codec.Bounded d := by
  have serial (e : Nat) : CertificateSerial.layout.codec.Bounded e :=
    CertificateSerial.within.bounded (Nat.succ_le_succ (Nat.zero_le e))
  exact Layout.bounded (fun e _ => ⟨.required (serial e), .required bounded_text,
    .required bounded_text⟩) fun _ => rfl

theorem Entitlement.bounded : Entitlement.layout.codec.Bounded d := by
  have date (name : String) (e : Nat) : (Field.optional name Moment.codec).Bounded e :=
    .optional ((Moment.codec_within 0).bounded (Nat.zero_le (e + 1)))
  have certificates (e : Nat) :
      (Field.defaulted "certificates" (Codec.list Certificate.layout.codec) []).Bounded e :=
    .defaulted (.list fun _ _ => Certificate.bounded) (Nat.succ_le_succ (Nat.zero_le e))
  exact Layout.bounded (fun e _ => ⟨.required bounded_text, .required Pool.bounded,
    .required fun _ _ _ _ => Nat.zero_le (e + 1), date _ e, date _ e, certificates e, nofun⟩)
    fun _ => rfl

theorem Consumer.bounded : Consumer.layout.codec.Bounded d := by
  have maybe (name : String) (e : Nat) : (Field.optional name .text).Bounded e :=
    .optional bounded_text
  have type (e : Nat) : ConsumerType.layout.codec.Bounded e :=
    ConsumerType.within.bounded (Nat.succ_le_succ (Nat.zero_le e))
  have entitlements (e : Nat) :
      (Field.defaulted "entitlements" (Codec.list Entitlement.layout.codec) []).Bounded e :=
    .defaulted (.list fun _ _ => Entitlement.bounded) (Nat.succ_le_succ (Nat.zero_le e))
  exact Layout.bounded (fun e _ => ⟨.required bounded_text, .required bounded_text, maybe _ e,
    .required bounded_text, .required (type e), maybe _ e, .optional Certificate.bounded,
    entitlements e⟩) fun _ => rfl

/-! ### Reading again -/

namespace RecordType

def holdsProducts : RecordType → Bool
  | consumer | entitlement | pool | product => true
  | _ => false

theorem bounded (fresh : String) {t : RecordType} (holds : t.holdsProducts = true) :
    (t.codec fresh).Bounded d := by
  cases t with
  | consumer => exact Consumer.bounded
  | entitlement => exact Entitlement.bounded
  | pool => exact Pool.bounded
  | product => exact Product.bounded
  | _ => cases holds

theorem within (fresh : String) {t : RecordType} (free : t.holdsProducts = false) :
    (t.codec fresh).Within 2 := by
  cases t with
  | consumerRecord => exact ConsumerRecord.within
  | consumerType => exact fun v => (ConsumerType.within v).trans (by decide)
  | certificateSerial => exact fun v => (CertificateSerial.within v).trans (by decide)
  | certificate => exact Certificate.within
  | productCertificate => exact fun v => (ProductCertificate.within v).trans (by decide)
  | distributorVersion => exact DistributorVersion.within
  | cdn => exact fun v => (Cdn.within v).trans (by decide)
  | rules => exact fun v => (Rules.within v).trans (by decide)
  | manifestMeta => exact fun v => (Meta.within v).trans (by decide)
  | subscription => exact fun v => (Subscription.Record.within fresh v).trans (by decide)
  | resolution => exact fun v => (Subscription.Resolution.within v).trans (by decide)
  | reconciliation => exact Subscription.Reconciliation.within
  | settings => exact fun v => (Settings.within v).trans (by decide)
  | _ => cases free

/- A record that was read is read again from its own texts, or it holds a product that stands at the
last level there is: then its texts nest one level too deep and are refused. -/
theorem accepted_reread (fresh : String) (t : RecordType) {bytes : ByteArray} {v : t.Carrier}
    (accepted : (t.codec fresh).decode bytes = .ok v) :
    ((t.codec fresh).write v).depth ≤ depthLimit ∧
        (t.codec fresh).Decodes ((t.codec fresh).write v) (t.settled v) ∨
      t.holdsProducts = true ∧ ((t.codec fresh).write v).depth = depthLimit + 1 ∧
        (t.codec fresh).Refuses ((t.codec fresh).write v) := by
  have takes := t.takes fresh v depthLimit
  rcases Nat.lt_or_ge depthLimit ((t.codec fresh).write v).depth with deep | fit
  · right
    cases holds : t.holdsProducts with
    | false =>
      have flat := within fresh holds v
      exact absurd (Nat.lt_of_lt_of_le deep flat) (by decide)
    | true =>
      have most := (t.bounded fresh holds).decode accepted
      exact ⟨rfl, Nat.le_antisymm most deep, takes.refuses deep⟩
  · exact .inl ⟨fit, takes.decodes fit⟩

theorem accepted_reread_chain :
    (product.codec "").decode (Product.sparse 126).text.toUTF8 = .ok (Product.chain 126) ∧
    (((product.codec "").write (Product.chain 126)).depth ≤ depthLimit ∧
        (product.codec "").Decodes ((product.codec "").write (Product.chain 126))
          (product.settled (Product.chain 126)) ∨
      product.holdsProducts = true ∧
        ((product.codec "").write (Product.chain 126)).depth = depthLimit + 1 ∧
        (product.codec "").Refuses ((product.codec "").write (Product.chain 126))) := by
  have accepted := @Product.sparse_accepted 126 (by decide)
  exact ⟨accepted, accepted_reread "" product accepted⟩

/- The longest chain that is read is not read again. -/
theorem longest_chain_not_reread :
    (product.codec "").decode (Product.sparse 126).text.toUTF8 = .ok (Product.chain 126) ∧
      ¬ (product.codec "").Decodes ((product.codec "").write (Product.chain 126))
        (product.settled (Product.chain 126)) := by
  have refused := @Product.chain_refused 126 (by decide)
  refine ⟨Product.sparse_accepted (by decide), fun again => ?_⟩
  have both := refused.1.symm.trans again.1
  cases both

end RecordType

end SignedManifest
