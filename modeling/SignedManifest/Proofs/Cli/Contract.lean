import SignedManifest.Proofs.Cli.Delivering
import SignedManifest.Proofs.Cli.Stages
import SignedManifest.Proofs.Export.Confinement
import SignedManifest.Proofs.Export.Fitting
import SignedManifest.Proofs.Export.Verified
import SignedManifest.Proofs.Key.Armored

/-!
What a command that exports promises to whoever calls it. Either it ends with code zero and has printed
the path of the signed archive of this run, which the command that verifies accepts; or it has printed
nothing, one of its stages has failed, and its code is that of the failure.
-/
namespace SignedManifest.Cli
open SignedManifest.Path Disk Exporter

variable {w : World} {i : Invocation} {o : Order} {c : Command} {settings : Settings} {d d' : Disk}
  {snapshot : Snapshot} {key : Rsa.PrivateKey} {f : Failure} {printed : Printed}
  {result : Except Failure Printed} {args : List String}

/-! ### The archive -/

theorem archive_named (area uuid : String) :
    signedFileName uuid (join area treeName) = uuid ++ "-export.zip" := by
  rw [signedFileName, fileName?_join area treeName_component, String.append_assoc, String.append_assoc]
  rfl

theorem exportConsumer_error (single : '/' ∉ snapshot.consumer.uuid.toList)
    (set : settingsFor w i.settingsPath d = .ok settings)
    (loaded : loadSource settings o.source d = .ok (snapshot, key))
    (failed : exportConsumer w settings o.source o.rules o.principal o.what o.scope d =
      (.error f, d')) : Stopped w i o d f d' := by
  simp only [exportConsumer, loaded] at failed
  split at failed
  · rename_i stuck
    cases failed
    exact .exporting set loaded stuck
  rename_i archive finished ran
  unfold deliver at failed
  split at failed
  · cases failed
  rename_i dir wanted
  split at failed
  · cases failed
  rename_i e left stuck
  cases failed
  unfold copyInto at stuck
  split at stuck
  · rename_i unmade
    cases stuck
    exact .directory set loaded ran wanted unmade
  rename_i made makes
  obtain ⟨area, _, _, _, _, _, _, c⟩ := run_completed single ran
  have named := fileName?_join area (signedFileName_component single (join area treeName))
  rw [← c.answer] at named
  rw [named] at stuck
  dsimp only at stuck
  split at stuck
  · cases stuck
  · rename_i uncopied
    cases stuck
    exact .copy set loaded ran wanted makes named uncopied

theorem exportConsumer_of_ok {archive : String} {finished : Disk}
    (loaded : loadSource settings o.source d = .ok (snapshot, key))
    (ran : (o.exporter settings snapshot key).run snapshot.consumer o.scope w.now w.areaNames d =
      (.ok archive, finished)) :
    exportConsumer w settings o.source o.rules o.principal o.what o.scope d =
      deliver archive o.source.out finished := by
  rw [Order.exporter] at ran
  simp only [exportConsumer, loaded, ran]

def Order.destination (o : Order) (area uuid : String) : String :=
  join (o.source.out.getD area) (uuid ++ "-export.zip")

/-- What stands behind the path that a command prints: the run of the exporter in its work area, the
archives that it made of the export tree, and the file at the path, with the bytes of the signed one. -/
structure Delivered (w : World) (o : Order) (settings : Settings) (snapshot : Snapshot)
    (key : Rsa.PrivateKey) (d : Disk) (area : String) (tree : Place) (inner : Zip.Archive)
    (signature : ByteArray) (finished d' : Disk) : Prop where
  opens : (openArea d settings.workDir w.areaNames).1 = .ok area
  ran : (o.exporter settings snapshot key).run snapshot.consumer o.scope w.now w.areaNames d =
    (.ok (join area (snapshot.consumer.uuid ++ "-export.zip")), finished)
  located : finished.locate (join area treeName) = .ok tree
  packed : inner = ⟨innerComment snapshot.consumer.uuid, (finished.filesBelow tree).map fun f =>
    ⟨entryName settings.entryNaming (join area treeName) f.1, f.2⟩⟩
  signed : key.sign inner.encode = .ok signature
  written : finished.content (join area (snapshot.consumer.uuid ++ "-export.zip")) =
    .ok (signedArchive snapshot.consumer.uuid inner.encode signature).encode
  held : d'.content (o.destination area snapshot.consumer.uuid) =
    .ok (signedArchive snapshot.consumer.uuid inner.encode signature).encode

/-- Where there is a directory for the archive, it does not lie in the work area of the run. -/
def Order.StaysOut (o : Order) (w : World) (settings : Settings) (d d' : Disk) : Prop :=
  ∀ area dir A O, (openArea d settings.workDir w.areaNames).1 = .ok area →
    o.source.out = some dir → d'.Leads area A → d'.Leads dir O → ¬ A <+: O

theorem exportConsumer_delivered (single : '/' ∉ snapshot.consumer.uuid.toList)
    (grounded : d.Grounded) (addressable : d'.Addressable)
    (loaded : loadSource settings o.source d = .ok (snapshot, key))
    (outside : o.StaysOut w settings d d')
    (done : exportConsumer w settings o.source o.rules o.principal o.what o.scope d =
      (.ok printed, d')) :
    ∃ area tree inner signature finished,
      printed = { output := o.destination area snapshot.consumer.uuid ++ "\n" } ∧
      Delivered w o settings snapshot key d area tree inner signature finished d' ∧
      inner.ReadsBack ∧ (signedArchive snapshot.consumer.uuid inner.encode signature).ReadsBack := by
  simp only [exportConsumer, loaded] at done
  split at done
  · cases done
  rename_i archive finished ran
  obtain ⟨area, A, _, _, _, entries, signature, c⟩ := run_completed single ran
  obtain ⟨located, packed, _⟩ := c.entries_eq
  have opens : (openArea d settings.workDir w.areaNames).1 = .ok area := congrArg Prod.fst c.opens
  have component := signedFileName_component single (join area treeName)
  have answer := c.answer
  have place := c.packed.outer_locate
  have outer := c.packed.outer
  rw [archive_named] at component answer place outer
  subst answer
  obtain ⟨rfl, held⟩ := deliver_ok component (c.leads.kept c.packed.keeps) place outer
    (fun dir O wanted => outside area dir A O opens wanted) done
  obtain ⟨innerFits, signedFits⟩ := Completed.fits c single grounded (addressable.content held)
  exact ⟨area, A ++ [treeName], innerArchive snapshot.consumer.uuid entries, signature, finished, rfl,
    { opens := opens
      ran := ran
      located := located
      packed := congrArg (innerArchive snapshot.consumer.uuid) packed
      signed := c.packed.signed
      written := content_ok.mpr ⟨_, place, outer⟩
      held := held }, innerFits.readsBack, signedFits.readsBack⟩

theorem exportConsumer_others {P : Place} {bytes : ByteArray}
    (single : '/' ∉ snapshot.consumer.uuid.toList) (grounded : d.Grounded)
    (loaded : loadSource settings o.source d = .ok (snapshot, key))
    (held : d.get? P = some (.file bytes))
    (apart : ∀ dir O, o.source.out = some dir → d'.Leads dir O →
      P ≠ O ++ [snapshot.consumer.uuid ++ "-export.zip"])
    (done : exportConsumer w settings o.source o.rules o.principal o.what o.scope d = (.ok printed, d')) :
    d'.get? P = some (.file bytes) := by
  simp only [exportConsumer, loaded] at done
  split at done
  · cases done
  rename_i archive finished ran
  obtain ⟨area, A, _, _, _, _, _, c⟩ := run_completed single ran
  have named := fileName?_join area (signedFileName_component single (join area treeName))
  rw [← c.answer, archive_named] at named
  obtain ⟨_, _, bad, _⟩ | ⟨_, B, opened, _, fresh, works⟩ := run_inside single ran
  · cases bad
  have away : ¬ B <+: P := by
    rintro ⟨t, rfl⟩
    rw [grounded.nothing_below fresh.free t] at held
    cases held
  have begun : opened.get? P = some (.file bytes) := by
    have other : P ≠ B := fun same => away (same ▸ List.prefix_rfl)
    obtain same | ⟨free, _⟩ := fresh.others P other
    · rw [same, held]
    · rw [free] at held
      cases held
  have left : finished.get? P = some (.file bytes) := by rw [works.outside P away, begun]
  refine deliver_others done left fun dir name O wanted named' leads => ?_
  obtain rfl := Option.some.inj (named'.symm.trans named)
  exact apart dir O wanted leads

/-! ### The command that verifies -/

def listing (v : VerifiedManifest) : String :=
  String.join ((v.digest ++ "\n") :: v.entries.map ("  " ++ · ++ "\n"))

def acceptance (path : String) (v : VerifiedManifest) : String :=
  "Manifest verified (" ++ path ++ "): OK, " ++ toString v.entries.length ++ " entries\n"

theorem verifyFile_accepted {pub path : String} {k : Rsa.PublicKey} {v : VerifiedManifest}
    (loads : Rsa.PublicKey.load pub d = .ok k)
    (verified : Verification.verifyManifest k.verify path d = .ok v) :
    verifyFile pub path d = .ok ⟨listing v, acceptance path v⟩ := by
  unfold verifyFile
  rw [loads]
  exact bind_ok.mpr ⟨k, rfl, bind_ok.mpr ⟨v, inContext_ok.mpr verified, rfl⟩⟩

def described (inner : Zip.Archive) : VerifiedManifest :=
  ⟨inner.encode, inner.entries.map Zip.Entry.name, Sha256.fingerprint inner.encode⟩

theorem signed_verifies {path uuid : String} {v : Verifier} {inner : Zip.Archive}
    {signature : ByteArray}
    (held : d.content path = .ok (signedArchive uuid inner.encode signature).encode)
    (innerBack : inner.ReadsBack) (signedBack : (signedArchive uuid inner.encode signature).ReadsBack)
    (accepts : v inner.encode signature = true) :
    Verification.verifyManifest v path d = .ok (described inner) := by
  rw [Verification.verifyManifest, Verification.verifyManifestBy, held]
  dsimp only
  rw [Verification.verifyArchive_of_listing path signedBack, if_pos accepts,
    Verification.acceptInner_of_listing innerBack, List.map_map]
  rfl

theorem run_eq (parsed : Invocation.parse w.var args = .ok i) :
    run w args d = .ok (i.run w d) := by
  rw [run, parsed]
  rfl

theorem run_of_parsed (parsed : Invocation.parse w.var args = .ok i) (ordered : i.command.order? = some o)
    (set : settingsFor w i.settingsPath d = .ok settings) :
    run w args d = .ok (exportConsumer w settings o.source o.rules o.principal o.what o.scope d) := by
  rw [run_eq parsed, Invocation.run, set]
  exact congrArg Except.ok (run_of_order ordered)

/-- Under every key that accepts what the signing key signs, verifying the archive at a path succeeds
and prints the digest and the entries of the inner one. -/
def Verifies (d : Disk) (path : String) (key : Rsa.PrivateKey) (inner : Zip.Archive) : Prop :=
  ∀ (w : World) (args : List String) (file : Option String) (pub : String) (settings : Settings)
    (k : Rsa.PublicKey), Invocation.parse w.var args = .ok ⟨file, .verify pub path⟩ →
    settingsFor w file d = .ok settings → Rsa.PublicKey.load pub d = .ok k →
    (∀ data given, key.sign data = .ok given → k.verify data given = true) →
    run w args d = .ok (.ok ⟨listing (described inner), acceptance path (described inner)⟩, d) ∧
      exitCode (run w args d) = 0

theorem Delivered.verifies {area : String} {tree : Place} {inner : Zip.Archive}
    {signature : ByteArray} {finished : Disk}
    (delivered : Delivered w o settings snapshot key d area tree inner signature finished d')
    (innerBack : inner.ReadsBack)
    (signedBack : (signedArchive snapshot.consumer.uuid inner.encode signature).ReadsBack) :
    Verifies d' (o.destination area snapshot.consumer.uuid) key inner := by
  intro w args file pub settings k parsed set loads accepts
  have verified := signed_verifies delivered.held innerBack signedBack
    (accepts _ _ delivered.signed)
  have done : run w args d' = .ok (.ok ⟨listing (described inner),
      acceptance (o.destination area snapshot.consumer.uuid) (described inner)⟩, d') := by
    rw [run_eq parsed, Invocation.run]
    dsimp only
    rw [set]
    dsimp only [Command.run]
    rw [verifyFile_accepted loads verified]
  exact ⟨done, by rw [done]; rfl⟩

/- The public half of the signing key is such a key, unless it is too long to be read. -/
theorem Verifies.public_half {path pub : String} {file : Option String} {inner : Zip.Archive}
    (verifies : Verifies d path key inner) (consistent : key.isConsistent = true)
    (brief : key.modulus < 1 <<< Rsa.modulusBits)
    (short : key.toPublicKey.envelope.length ≤ Der.lengthLimit)
    (parsed : Invocation.parse w.var args = .ok ⟨file, .verify pub path⟩)
    (set : settingsFor w file d = .ok settings)
    (held : d.content pub = .ok key.toPublicKey.text.toUTF8) :
    run w args d = .ok (.ok ⟨listing (described inner), acceptance path (described inner)⟩, d) ∧
      exitCode (run w args d) = 0 := by
  have usable := (Rsa.PrivateKey.isUsable_of_consistent consistent).mpr brief
  have loads := Rsa.PublicKey.load_text held short
  rw [if_pos usable] at loads
  exact verifies w args file pub settings key.toPublicKey parsed set loads fun _ _ signed =>
    (Rsa.PrivateKey.sign_verifies signed).2

theorem run_outcome (parsed : Invocation.parse w.var args = .ok i)
    (ordered : i.command.order? = some o) (grounded : d.Grounded) (addressable : d'.Addressable)
    (plain : ∀ s, readJson Snapshot.layout.codec "snapshot" o.source.snapshot d = .ok s →
      isPlainName s.consumer.uuid = true)
    (ran : run w args d = .ok (result, d'))
    (outside : ∀ settings, settingsFor w i.settingsPath d = .ok settings → o.StaysOut w settings d d') :
    (∃ f, result = .error f ∧ Stopped w i o d f d') ∨
      ∃ settings snapshot key area tree inner signature finished,
        settingsFor w i.settingsPath d = .ok settings ∧
        loadSource settings o.source d = .ok (snapshot, key) ∧
        Delivered w o settings snapshot key d area tree inner signature finished d' ∧
        Verifies d' (o.destination area snapshot.consumer.uuid) key inner ∧
        result = .ok { output := o.destination area snapshot.consumer.uuid ++ "\n" } := by
  rw [run_eq parsed, Except.ok.injEq, Invocation.run] at ran
  split at ran
  · rename_i f unset
    cases ran
    exact .inl ⟨f, rfl, settingsFor_error unset⟩
  rename_i settings set
  rw [run_of_order ordered] at ran
  cases loaded : loadSource settings o.source d with
  | error f =>
    simp only [exportConsumer, loaded] at ran
    cases ran
    exact .inl ⟨f, rfl, loadSource_error set loaded⟩
  | ok source =>
    obtain ⟨snapshot, key⟩ := source
    have single := (isComponent_of_plain (plain snapshot (loadSource_read loaded))).whole
    cases result with
    | error f => exact .inl ⟨f, rfl, exportConsumer_error single set loaded ran⟩
    | ok printed =>
      obtain ⟨area, tree, inner, signature, finished, rfl, delivered, innerBack, signedBack⟩ :=
        exportConsumer_delivered single grounded addressable loaded (outside settings set) ran
      exact .inr ⟨settings, snapshot, key, area, tree, inner, signature, finished, set, loaded,
        delivered, delivered.verifies innerBack signedBack, rfl⟩

def standardOutput : Except Failure Printed → String
  | .ok printed => printed.output
  | .error _ => ""

/- Code zero and a printed path come together, and with them the archive at the path, which the command
   that verifies accepts. Every other code comes with a failure and no output. -/
theorem export_contract (parsed : Invocation.parse w.var args = .ok i)
    (ordered : i.command.order? = some o) (grounded : d.Grounded) (addressable : d'.Addressable)
    (plain : ∀ s, readJson Snapshot.layout.codec "snapshot" o.source.snapshot d = .ok s →
      isPlainName s.consumer.uuid = true)
    (ran : run w args d = .ok (result, d'))
    (outside : ∀ settings, settingsFor w i.settingsPath d = .ok settings → o.StaysOut w settings d d') :
    (exitCode (.ok (result, d')) = 0 →
      ∃ settings snapshot key area tree inner signature finished,
        settingsFor w i.settingsPath d = .ok settings ∧
        loadSource settings o.source d = .ok (snapshot, key) ∧
        Delivered w o settings snapshot key d area tree inner signature finished d' ∧
        standardOutput result = o.destination area snapshot.consumer.uuid ++ "\n" ∧
        Verifies d' (o.destination area snapshot.consumer.uuid) key inner) ∧
    (exitCode (.ok (result, d')) ≠ 0 →
      standardOutput result = "" ∧ ∃ f, result = .error f ∧ Stopped w i o d f d' ∧
        ((∃ e, f.cause = .exporting e ∧ exitCode (.ok (result, d')) = e.exitCode) ∨
          (∀ e, f.cause ≠ .exporting e) ∧ (∀ e, f.cause ≠ .verifying e) ∧
            exitCode (.ok (result, d')) = 2)) := by
  obtain ⟨f, rfl, stopped⟩ | ⟨settings, snapshot, key, area, tree, inner, signature, finished, set, loaded,
    delivered, verifies, rfl⟩ := run_outcome parsed ordered grounded addressable plain ran outside
  · exact ⟨fun zero => absurd zero (exitCode_ne_zero f), fun _ => ⟨rfl, f, rfl, stopped, stopped.code⟩⟩
  · exact ⟨fun _ => ⟨settings, snapshot, key, area, tree, inner, signature, finished, set, loaded,
      delivered, rfl, verifies⟩, fun bad => absurd rfl bad⟩

/-! ### A key that is verified with, and one that is too long -/

def keyOfPrimes (p q turns : Nat) : Rsa.PrivateKey where
  modulus := p * q
  exponent := 65537
  privateExponent := (turns * ((p - 1) * (q - 1)) + 1) / 65537
  prime1 := p
  prime2 := q

def hintsOf (k : Rsa.PrivateKey) : Nat × Nat × Nat :=
  (k.privateExponent % (k.prime1 - 1), k.privateExponent % (k.prime2 - 1),
    Rsa.powMod k.prime2 (k.prime1 - 2) k.prime1)

def sampleKey : Rsa.PrivateKey := keyOfPrimes (2 ^ 255 + 95) (2 ^ 255 + 141) 63955

def longKey : Rsa.PrivateKey := keyOfPrimes (2 ^ 2048 + 981) (2 ^ 2048 + 1617) 47896

def bareSnapshotText : String :=
  "\x7b\"consumer\":\x7b\"uuid\":\"c1\",\"name\":\"n\",\"ownerKey\":\"o\"," ++
    "\"type\":\x7b\"label\":\"t\"\x7d\x7d\x7d"

def suppliedDisk (key : Rsa.PrivateKey) : Disk :=
  ((({ : Disk }).put ["s"] (.file bareSnapshotText.toUTF8)).put ["k"]
    (.file (key.text (hintsOf key)).toUTF8)).put ["p"] (.file key.toPublicKey.text.toUTF8)

def sampleWorld : World := ⟨fun _ => none, sampleMoment, ["a"], fun _ => ""⟩

def sampleOrder : Order :=
  ⟨⟨"/s", some "/k", some "/out"⟩, .allowAll, "tally-cli", "certificate export", .certificates none⟩

def certificateArgs : List String := ["certs", "--snapshot", "/s", "--key", "/k", "--out", "/out"]

def certificateInvocation : Invocation :=
  ⟨none, .certificates ⟨"/s", some "/k", some "/out"⟩ [] "tally-cli"⟩

def noSnapshot : Failure := ⟨["failed to read snapshot /s"], .file .noEntry⟩

def verifyArgs : List String := ["verify", "--key", "/p", "/out/c1-export.zip"]

theorem certificateArgs_parse (var : String → Option String) (unset : ∀ name, var name = none) :
    Invocation.parse var certificateArgs = .ok certificateInvocation := by
  obtain rfl : var = fun _ => none := funext unset
  decide +kernel

theorem verifyArgs_parse (var : String → Option String) (unset : ∀ name, var name = none) :
    Invocation.parse var verifyArgs = .ok ⟨none, .verify "/p" "/out/c1-export.zip"⟩ := by
  obtain rfl : var = fun _ => none := funext unset
  decide +kernel

theorem bareDisk_grounded : ({ } : Disk).Grounded := fun p name stands =>
  absurd (by rw [Disk.get?, if_neg (by simp)]; rfl) stands

theorem suppliedDisk_grounded (key : Rsa.PrivateKey) : (suppliedDisk key).Grounded := by
  have file {d : Disk} {name : String} {bytes : ByteArray} (grounded : d.Grounded)
      (free : d.isDirAt [name] = false) : (d.put [name] (.file bytes)).Grounded :=
    grounded.put (p := []) rfl (put_file_keeps bytes free)
  exact file (file (file bareDisk_grounded rfl) (by simp [isDirAt, Disk.get?]; rfl))
    (by simp [isDirAt, Disk.get?]; rfl)

theorem content_top (path name : String) {bytes : ByteArray} (allowed : checkPath path = .ok ())
    (spelled : stepsOf path = ([name], false) ∧ isAbsolute path = true)
    (plain : name ≠ "." ∧ name ≠ ".." ∧ name.utf8ByteSize ≤ nameLimit)
    (held : d.get? [name] = some (.file bytes)) : d.content path = .ok bytes := by
  have stepped : d.step [] name = .ok [name] := by
    have root : d.isDirAt [] = true := rfl
    simp [step, root, plain, Nat.not_lt.mpr plain.2.2, held]
  have found : d.locate path = .ok [name] := by
    rw [Disk.locate, allowed, spelled.1, start, if_pos spelled.2]
    exact walk_one.mpr stepped
  exact content_ok.mpr ⟨[name], found, held⟩

theorem suppliedDisk_held (key : Rsa.PrivateKey) :
    (suppliedDisk key).content "/s" = .ok bareSnapshotText.toUTF8 ∧
      (suppliedDisk key).content "/k" = .ok (key.text (hintsOf key)).toUTF8 ∧
      (suppliedDisk key).get? ["p"] = some (.file key.toPublicKey.text.toUTF8) := by
  refine ⟨content_top "/s" "s" (by decide) (by decide) (by decide) ?_,
    content_top "/k" "k" (by decide) (by decide) (by decide) ?_, ?_⟩ <;> simp [suppliedDisk, get?_put]

theorem certificates_run {key : Rsa.PrivateKey} (checked : Disk → Bool)
    (loads : Rsa.PrivateKey.load "/k" (suppliedDisk key) = .ok key)
    (computed : ((Snapshot.layout.codec.decode bareSnapshotText.toUTF8).toOption.bind fun s =>
      match (sampleOrder.exporter .standard s key).run s.consumer sampleOrder.scope sampleWorld.now
          sampleWorld.areaNames (suppliedDisk key) with
      | (.error _, _) => none
      | (.ok archive, d) =>
        let (result, d') := deliver archive (some "/out") d
        result.toOption.map fun printed => (s.consumer.uuid, printed, checked d')) =
      some ("c1", { output := "/out/c1-export.zip\n" }, true)) :
    ∃ s d', loadSource .standard sampleOrder.source (suppliedDisk key) = .ok (s, key) ∧
      s.consumer.uuid = "c1" ∧ checked d' = true ∧
      run sampleWorld certificateArgs (suppliedDisk key) =
        .ok (.ok { output := "/out/c1-export.zip\n" }, d') := by
  obtain ⟨s, read, went⟩ := Option.bind_eq_some_iff.mp computed
  have decoded := toOption_ok.mp read
  have loaded : loadSource .standard sampleOrder.source (suppliedDisk key) = .ok (s, key) :=
    bind_ok.mpr ⟨s, bind_ok.mpr ⟨_, inContext_ok.mpr (suppliedDisk_held key).1, inContext_ok.mpr decoded⟩,
      bind_ok.mpr ⟨key, inContext_ok.mpr loads, rfl⟩⟩
  split at went
  · cases went
  rename_i archive d exported
  cases delivered : deliver archive (some "/out") d with
  | mk result d' =>
    rw [delivered] at went
    obtain ⟨printed, good, same⟩ := Option.map_eq_some_iff.mp went
    simp only [Prod.mk.injEq] at same
    obtain ⟨named, rfl, holds⟩ := same
    obtain rfl := toOption_ok.mp good
    refine ⟨s, d', loaded, named, holds, ?_⟩
    have set : settingsFor sampleWorld none (suppliedDisk key) = .ok .standard := rfl
    rw [run_of_parsed (certificateArgs_parse _ fun _ => rfl) (o := sampleOrder) rfl set,
      exportConsumer_of_ok loaded exported]
    exact congrArg Except.ok delivered

theorem sampleKey_loads : sampleKey.isConsistent = true ∧
    sampleKey.toPublicKey.envelope.length ≤ Der.lengthLimit ∧
    Rsa.PrivateKey.load "/k" (suppliedDisk sampleKey) = .ok sampleKey := by
  have consistent : sampleKey.isConsistent = true := by decide +kernel
  have short : (sampleKey.document (hintsOf sampleKey)).length ≤ Der.lengthLimit := by decide +kernel
  exact ⟨consistent, by decide +kernel,
    Rsa.PrivateKey.load_text (suppliedDisk_held sampleKey).2.1 short consistent⟩

theorem sampleKey_run : ∃ s d', loadSource .standard sampleOrder.source (suppliedDisk sampleKey) =
      .ok (s, sampleKey) ∧ s.consumer.uuid = "c1" ∧ d'.Addressable ∧
    run sampleWorld certificateArgs (suppliedDisk sampleKey) =
      .ok (.ok { output := "/out/c1-export.zip\n" }, d') := by
  obtain ⟨s, d', loaded, named, addressable, ran⟩ := certificates_run
    (fun d => decide d.Addressable) sampleKey_loads.2.2 (by decide +kernel)
  exact ⟨s, d', loaded, named, of_decide_eq_true addressable, ran⟩

theorem longKey_loads : longKey.isConsistent = true ∧ longKey.toPublicKey.isUsable = false ∧
    longKey.toPublicKey.envelope.length ≤ Der.lengthLimit ∧
    Rsa.PrivateKey.load "/k" (suppliedDisk longKey) = .ok longKey := by
  have consistent : longKey.isConsistent = true := by decide +kernel
  have short : (longKey.document (hintsOf longKey)).length ≤ Der.lengthLimit := by decide +kernel
  exact ⟨consistent, by decide +kernel, by decide +kernel,
    Rsa.PrivateKey.load_text (suppliedDisk_held longKey).2.1 short consistent⟩

theorem longKey_run : ∃ s d', loadSource .standard sampleOrder.source (suppliedDisk longKey) =
      .ok (s, longKey) ∧ s.consumer.uuid = "c1" ∧
    run sampleWorld certificateArgs (suppliedDisk longKey) =
      .ok (.ok { output := "/out/c1-export.zip\n" }, d') := by
  obtain ⟨s, d', loaded, named, _, ran⟩ := certificates_run (fun _ => true)
    longKey_loads.2.2.2 (by decide +kernel)
  exact ⟨s, d', loaded, named, ran⟩

theorem leads_top {dir : String} {O : Place} (names : List String) (spelled : (stepsOf dir).1 = names)
    (absolute : isAbsolute dir = true) (plain : ∀ s ∈ names, IsComponent s) (leads : d.Leads dir O) :
    O = names := by
  have went := leads.1
  rw [spelled, start, if_pos absolute] at went
  exact walk_components plain went

theorem sampleOrder_staysOut (d d' : Disk) : sampleOrder.StaysOut sampleWorld .standard d d' := by
  intro area dir A O opens wanted leadsArea leadsDir inside
  cases wanted
  cases opened : openArea d Settings.standard.workDir sampleWorld.areaNames with
  | mk result after =>
    rw [opened] at opens
    cases opens
    obtain ⟨_, fresh⟩ := openArea_opens opened
    obtain ⟨name, member, rfl⟩ := fresh.named
    cases List.mem_singleton.mp member
    have spelled : join (absoluteDir d Settings.standard.workDir) "a" = "/tmp/a" := by
      rw [absoluteDir, if_pos (by decide)]
      decide
    rw [spelled] at leadsArea
    have first := leads_top ["tmp", "a"] (by decide) (by decide)
      (by rintro s (_ | ⟨_, _ | ⟨_, ⟨⟩⟩⟩) <;> constructor <;> decide) leadsArea
    have second := leads_top ["out"] (by decide) (by decide)
      (by rintro s (_ | ⟨_, ⟨⟩⟩); constructor <;> decide) leadsDir
    rw [first, second] at inside
    exact absurd inside (by decide)

theorem public_half_stays {key : Rsa.PrivateKey} {s : Snapshot} (named : s.consumer.uuid = "c1")
    (loaded : loadSource .standard sampleOrder.source (suppliedDisk key) = .ok (s, key))
    (ran : run sampleWorld certificateArgs (suppliedDisk key) = .ok (.ok printed, d')) :
    d'.content "/p" = .ok key.toPublicKey.text.toUTF8 := by
  rw [run_of_parsed (certificateArgs_parse _ fun _ => rfl) (o := sampleOrder) rfl rfl] at ran
  refine content_top "/p" "p" (by decide) (by decide) (by decide)
    (exportConsumer_others (by rw [named]; decide) (suppliedDisk_grounded key) loaded
      (suppliedDisk_held key).2.2 ?_ (Except.ok.inj ran))
  intro dir O _ _ same
  rw [named] at same
  have last := congrArg List.getLast? same
  rw [List.getLast?_concat] at last
  exact absurd last (by decide)

theorem bareDisk_unread :
    readJson Snapshot.layout.codec "snapshot" "/s" ({ } : Disk) = .error noSnapshot := by
  have missing : ({ } : Disk).content "/s" = .error .noEntry := rfl
  rw [readJson, missing]
  rfl

theorem bareDisk_run : run sampleWorld certificateArgs {} = .ok (.error noSnapshot, {}) := by
  rw [run_eq (certificateArgs_parse _ fun _ => rfl)]
  simp only [certificateInvocation, Invocation.run, settingsFor, Command.run, exportConsumer,
    loadSource, bareDisk_unread]
  rfl

/- With a snapshot and a key an export goes through, and its archive is accepted under the public half of
   the key. With nothing on the disk there is no snapshot to read. -/
theorem export_contract_sample :
    (∃ s area tree inner signature finished d',
      run sampleWorld certificateArgs (suppliedDisk sampleKey) =
        .ok (.ok { output := "/out/c1-export.zip\n" }, d') ∧
      Delivered sampleWorld sampleOrder .standard s sampleKey (suppliedDisk sampleKey) area tree inner
        signature finished d' ∧
      run sampleWorld verifyArgs d' = .ok (.ok ⟨listing (described inner),
        acceptance "/out/c1-export.zip" (described inner)⟩, d') ∧
      exitCode (run sampleWorld verifyArgs d') = 0) ∧
    run sampleWorld certificateArgs {} = .ok (.error noSnapshot, {}) ∧
    exitCode (run sampleWorld certificateArgs {}) = 2 ∧
    Stopped sampleWorld certificateInvocation sampleOrder {} noSnapshot {} := by
  have parsed := certificateArgs_parse sampleWorld.var fun _ => rfl
  constructor
  · obtain ⟨s, d', loaded, named, addressable, ran⟩ := sampleKey_run
    obtain ⟨consistent, short, _⟩ := sampleKey_loads
    have set (d : Disk) : settingsFor sampleWorld none d = .ok .standard := rfl
    obtain ⟨success, _⟩ := export_contract parsed (o := sampleOrder) rfl
      (suppliedDisk_grounded sampleKey) addressable (fun t read => by
        obtain rfl := Except.ok.inj ((loadSource_read loaded).symm.trans read)
        rw [named]
        decide) ran (fun settings set' => by
          cases (set _).symm.trans set'
          exact sampleOrder_staysOut _ _)
    obtain ⟨_, _, _, area, tree, inner, signature, mid, set', loaded', delivered, _, verifies⟩ :=
      success rfl
    cases (set _).symm.trans set'
    cases loaded.symm.trans loaded'
    have destination : sampleOrder.destination area s.consumer.uuid = "/out/c1-export.zip" := by
      rw [named]
      exact (by decide : join "/out" ("c1" ++ "-export.zip") = "/out/c1-export.zip")
    rw [destination] at verifies
    obtain ⟨accepted, code⟩ := verifies.public_half consistent (by decide +kernel) short
      (verifyArgs_parse sampleWorld.var fun _ => rfl) (set d') (public_half_stays named loaded ran)
    exact ⟨s, area, tree, inner, signature, mid, d', ran, delivered, accepted, code⟩
  · obtain ⟨_, failing⟩ := export_contract parsed (o := sampleOrder) rfl bareDisk_grounded (by decide)
      (fun s read => by rw [sampleOrder, bareDisk_unread] at read; cases read) bareDisk_run
      (fun settings set' => by
        cases set'
        exact sampleOrder_staysOut _ _)
    obtain ⟨_, f', same, stopped, _⟩ := failing (exitCode_ne_zero noSnapshot)
    cases same
    exact ⟨bareDisk_run, by rw [bareDisk_run]; rfl, stopped⟩

theorem unusable_refused {key : Rsa.PublicKey} (unusable : key.isUsable = false)
    (short : key.envelope.length ≤ Der.lengthLimit) (held : d.content "/p" = .ok key.text.toUTF8) :
    exitCode (run sampleWorld verifyArgs d) = 3 := by
  have refused := Rsa.PublicKey.load_text held short
  rw [unusable, if_neg Bool.false_ne_true] at refused
  rw [run_eq (verifyArgs_parse _ fun _ => rfl), Invocation.run]
  simp only [settingsFor, Command.run, verifyFile, refused]
  rfl

/- The public half of a key that is too long to verify with accepts what the key signs, and the command
   that verifies does not take it. -/
theorem long_key_not_verified_with : ∃ s d',
    readJson Snapshot.layout.codec "snapshot" "/s" (suppliedDisk longKey) = .ok s ∧
    isPlainName s.consumer.uuid = true ∧ (suppliedDisk longKey).Grounded ∧
    sampleOrder.StaysOut sampleWorld .standard (suppliedDisk longKey) d' ∧
    run sampleWorld certificateArgs (suppliedDisk longKey) =
      .ok (.ok { output := "/out/c1-export.zip\n" }, d') ∧
    d'.content "/p" = .ok longKey.toPublicKey.text.toUTF8 ∧
    (∀ data given, longKey.sign data = .ok given → longKey.toPublicKey.verify data given = true) ∧
    exitCode (run sampleWorld verifyArgs d') = 3 := by
  obtain ⟨s, d', loaded, named, ran⟩ := longKey_run
  obtain ⟨_, unusable, short, _⟩ := longKey_loads
  have read := loadSource_read (o := sampleOrder) loaded
  have kept := public_half_stays named loaded ran
  exact ⟨s, d', read, by rw [named]; decide, suppliedDisk_grounded longKey,
    sampleOrder_staysOut _ _, ran, kept, fun _ _ signed => (Rsa.PrivateKey.sign_verifies signed).2,
    unusable_refused unusable short kept⟩

end SignedManifest.Cli
