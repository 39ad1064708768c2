import SignedManifest.Cli.Run
import SignedManifest.Proofs.Disk.Operations

/-!
The stages of a command that exports. A command that ends early has gone through the stages before the
one that failed, says of that one what went wrong, and ends with a code of its own.
-/
namespace SignedManifest.Cli
open SignedManifest.Path Disk

/-! ### Commands that export -/

structure Order where
  source : SourceOptions
  rules : ExportRules
  principal : String
  /-- What complaints call the export. -/
  what : String
  scope : Scope

def Command.order? : Command → Option Order
  | exportAll source cdn web api principal rules =>
    some ⟨source, rules.rules, principal, "export", .full cdn web api⟩
  | certificates source serials principal =>
    let chosen := if serials.isEmpty then none else some (Serials.ofList serials)
    some ⟨source, .allowAll, principal, "certificate export", .certificates chosen⟩
  | verify .. => none
  | reconcile .. => none

def Order.exporter (o : Order) (settings : Settings) (snapshot : Snapshot) (key : Rsa.PrivateKey) :
    Exporter :=
  ⟨settings, snapshot.source, o.rules, key.sign, o.principal⟩

variable {w : World} {i : Invocation} {o : Order} {c : Command} {settings : Settings} {d d' : Disk}
  {snapshot : Snapshot} {key : Rsa.PrivateKey} {f : Failure} {printed : Printed}
  {result : Except Failure Printed} {args : List String}

theorem run_of_order (ordered : c.order? = some o) :
    c.run w settings d =
      exportConsumer w settings o.source o.rules o.principal o.what o.scope d := by
  cases c with
  | exportAll => cases ordered; rfl
  | certificates => cases ordered; rfl
  | verify => cases ordered
  | reconcile => cases ordered

/-! ### Failures -/

theorem exitCode_ne_zero (f : Failure) : f.exitCode ≠ 0 := by
  obtain ⟨contexts, cause⟩ := f
  cases cause with
  | exporting e => cases e <;> simp [Failure.exitCode, Cause.exitCode, ExportError.exitCode]
  | verifying e => cases e <;> simp [Failure.exitCode, Cause.exitCode, VerifyError.exitCode]
  | _ => simp [Failure.exitCode, Cause.exitCode]

/-- The stages at which a command that exports may end early, after those before it went well: what it
says of each, and the disk that it leaves behind. -/
inductive Stopped (w : World) (i : Invocation) (o : Order) (d : Disk) : Failure → Disk → Prop where
  | settings {path : String} {e : Settings.LoadError} (named : i.settingsPath = some path)
      (failed : Settings.load path d w.settings = .error e) :
      Stopped w i o d ⟨[], .settings e⟩ d
  | snapshotFile {settings : Settings} {e : IoError}
      (set : settingsFor w i.settingsPath d = .ok settings)
      (failed : d.content o.source.snapshot = .error e) :
      Stopped w i o d ⟨["failed to read snapshot " ++ o.source.snapshot], .file e⟩ d
  | snapshotText {settings : Settings} {bytes : ByteArray} {e : Json.ReadError}
      (set : settingsFor w i.settingsPath d = .ok settings)
      (read : d.content o.source.snapshot = .ok bytes)
      (failed : Snapshot.layout.codec.decode bytes = .error e) :
      Stopped w i o d ⟨["invalid snapshot " ++ o.source.snapshot], .json e⟩ d
  | noKey {settings : Settings} {snapshot : Snapshot}
      (set : settingsFor w i.settingsPath d = .ok settings)
      (read : readJson Snapshot.layout.codec "snapshot" o.source.snapshot d = .ok snapshot)
      (unnamed : o.source.key.or settings.signingKeyPath = none) :
      Stopped w i o d ⟨[], .missing "no signing key: pass --key or set TALLY_SIGNING_KEY"⟩ d
  | key {settings : Settings} {snapshot : Snapshot} {path : String} {e : ExportError}
      (set : settingsFor w i.settingsPath d = .ok settings)
      (read : readJson Snapshot.layout.codec "snapshot" o.source.snapshot d = .ok snapshot)
      (named : o.source.key.or settings.signingKeyPath = some path)
      (failed : Rsa.PrivateKey.load path d = .error e) :
      Stopped w i o d ⟨["failed to load signing key " ++ path], .exporting e⟩ d
  | exporting {settings : Settings} {snapshot : Snapshot} {key : Rsa.PrivateKey} {e : ExportError}
      {d' : Disk} (set : settingsFor w i.settingsPath d = .ok settings)
      (loaded : loadSource settings o.source d = .ok (snapshot, key))
      (failed : (o.exporter settings snapshot key).run snapshot.consumer o.scope w.now w.areaNames d =
        (.error e, d')) :
      Stopped w i o d ⟨[o.what ++ " of consumer " ++ snapshot.consumer.uuid ++ " failed"],
        .exporting e⟩ d'
  | directory {settings : Settings} {snapshot : Snapshot} {key : Rsa.PrivateKey}
      {archive dir : String} {e : IoError} {finished d' : Disk}
      (set : settingsFor w i.settingsPath d = .ok settings)
      (loaded : loadSource settings o.source d = .ok (snapshot, key))
      (ran : (o.exporter settings snapshot key).run snapshot.consumer o.scope w.now w.areaNames d =
        (.ok archive, finished))
      (wanted : o.source.out = some dir) (failed : finished.makeDirAll dir = (.error e, d')) :
      Stopped w i o d ⟨["failed to create output dir " ++ dir], .file e⟩ d'
  | copy {settings : Settings} {snapshot : Snapshot} {key : Rsa.PrivateKey}
      {archive dir name : String} {e : IoError} {finished made d' : Disk}
      (set : settingsFor w i.settingsPath d = .ok settings)
      (loaded : loadSource settings o.source d = .ok (snapshot, key))
      (ran : (o.exporter settings snapshot key).run snapshot.consumer o.scope w.now w.areaNames d =
        (.ok archive, finished))
      (wanted : o.source.out = some dir) (makes : finished.makeDirAll dir = (.ok (), made))
      (named : fileName? archive = some name)
      (failed : copyFile archive (join dir name) made = (.error e, d')) :
      Stopped w i o d ⟨["failed to copy manifest to " ++ join dir name], .file e⟩ d'

/- The code that a stage ends with is that of the typed error behind it, if there is one. -/
theorem Stopped.code (stopped : Stopped w i o d f d') :
    (∃ e, f.cause = .exporting e ∧ f.exitCode = e.exitCode) ∨
      (∀ e, f.cause ≠ .exporting e) ∧ (∀ e, f.cause ≠ .verifying e) ∧ f.exitCode = 2 := by
  cases stopped with
  | key set read named failed => exact .inl ⟨_, rfl, rfl⟩
  | exporting set loaded failed => exact .inl ⟨_, rfl, rfl⟩
  | _ => exact .inr ⟨nofun, nofun, rfl⟩

theorem settingsFor_error (failed : settingsFor w i.settingsPath d = .error f) :
    Stopped w i o d f d := by
  unfold settingsFor at failed
  split at failed
  · cases failed
  rename_i path named
  split at failed
  · cases failed
  rename_i e stuck
  cases failed
  exact .settings named stuck

theorem inContext_error {ε α : Type} {context : String} {cause : ε → Cause} {x : Except ε α}
    (failed : inContext context cause x = .error f) : ∃ e, x = .error e ∧ f = ⟨[context], cause e⟩ := by
  cases x with
  | ok a => cases failed
  | error e =>
    cases failed
    exact ⟨e, rfl, rfl⟩

theorem inContext_ok {ε α : Type} {context : String} {cause : ε → Cause} {x : Except ε α} {a : α} :
    inContext context cause x = .ok a ↔ x = .ok a := by
  cases x <;> simp [inContext]

theorem bind_error {ε α β : Type} {x : Except ε α} {g : α → Except ε β} {e : ε} :
    (x >>= g) = .error e ↔ x = .error e ∨ ∃ a, x = .ok a ∧ g a = .error e := by
  cases x <;> simp [bind, Except.bind]

theorem loadSource_error (set : settingsFor w i.settingsPath d = .ok settings)
    (failed : loadSource settings o.source d = .error f) : Stopped w i o d f d := by
  unfold loadSource at failed
  rcases bind_error.mp failed with unread | ⟨snapshot, read, failed⟩
  · rcases bind_error.mp unread with missing | ⟨bytes, held, malformed⟩
    · obtain ⟨e, stuck, rfl⟩ := inContext_error missing
      exact .snapshotFile set stuck
    · obtain ⟨e, stuck, rfl⟩ := inContext_error malformed
      exact .snapshotText set (inContext_ok.mp held) stuck
  split at failed
  · rename_i path named
    rcases bind_error.mp failed with unloaded | ⟨_, _, done⟩
    · obtain ⟨e, stuck, rfl⟩ := inContext_error unloaded
      exact .key set read named stuck
    · cases done
  · rename_i unnamed
    cases failed
    exact .noKey set read (Option.eq_none_iff_forall_ne_some.mpr unnamed)

theorem loadSource_read (loaded : loadSource settings o.source d = .ok (snapshot, key)) :
    readJson Snapshot.layout.codec "snapshot" o.source.snapshot d = .ok snapshot := by
  unfold loadSource at loaded
  obtain ⟨read, held, loaded⟩ := bind_ok.mp loaded
  split at loaded
  · obtain ⟨_, _, done⟩ := bind_ok.mp loaded
    cases done
    exact held
  · cases loaded

end SignedManifest.Cli
