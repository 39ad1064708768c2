import Mathlib.Data.List.Induction
import SignedManifest.Proofs.Archive.Verifying
import SignedManifest.Proofs.Export.Runs

/-!
Archives whose directory repeats a name. The reader keeps the last record of each name, and the check
for names that do not belong sees no more than that. So an archive is accepted by the last records of
its two names, however many records stand before them.
-/
namespace SignedManifest

namespace Zip

variable {records : List Header} {name : String} {h : Header}

/-- The records of an archive's directory, in order. A name may occur in several of them. -/
def records? (b : ByteArray) : Option (List Header) :=
  (directoryBelow? b (b.size - 21)).map Directory.headers

theorem find?_replaced {l : List Header} (known : l.any (·.name == h.name) = true) :
    (l.map fun g => if g.name == h.name then h else g).find? (·.name == name) =
      if h.name = name then some h else l.find? (·.name == name) := by
  have keeps (g : Header) : (if g.name == h.name then h else g).name = g.name := by
    split
    · exact (beq_iff_eq.mp ‹_›).symm
    · rfl
  rw [List.find?_map]
  simp only [Function.comp_def, keeps]
  split
  · rename_i wanted
    subst wanted
    obtain ⟨g, found⟩ := Option.isSome_iff_exists.mp (List.find?_isSome.mpr (List.any_eq_true.mp known))
    have same := List.find?_some found
    rw [found, Option.map_some, if_pos same]
  · rename_i other
    cases found : l.find? (·.name == name) with
    | none => rfl
    | some g =>
      have wanted : g.name = name := by simpa using List.find?_some found
      have apart : ¬ (g.name == h.name) = true := fun same =>
        other ((beq_iff_eq.mp same).symm.trans wanted)
      rw [Option.map_some, if_neg apart]

theorem find?_indexHeader {l : List Header} :
    (indexHeader l h).find? (·.name == name) =
      if h.name = name then some h else l.find? (·.name == name) := by
  unfold indexHeader
  split
  · exact find?_replaced ‹_›
  rename_i fresh
  rw [List.find?_append, List.find?_singleton]
  by_cases wanted : h.name = name
  · subst wanted
    have absent : l.find? (·.name == h.name) = none := by simpa using fresh
    simp [absent]
  · simp [wanted]

/- The index finds the last record of a name. The induction is on the records from the end, as the last
   one decides. -/
theorem find?_indexed :
    (records.foldl indexHeader []).find? (·.name == name) = some h ↔
      IsLast Header.name records h ∧ h.name = name := by
  induction records using List.reverseRecOn with
  | nil => simpa using fun last : IsLast Header.name [] h => absurd last.mem List.not_mem_nil
  | append_singleton records last ih =>
    rw [List.foldl_append, List.foldl_cons, List.foldl_nil, find?_indexHeader, isLast_concat]
    split
    · rename_i wanted
      subst wanted
      grind
    · grind

theorem mem_indexed :
    name ∈ (records.foldl indexHeader []).map Header.name ↔ name ∈ records.map Header.name := by
  constructor
  · intro here
    obtain ⟨g, member, rfl⟩ := List.mem_map.mp here
    obtain ⟨h, found⟩ : ∃ h, (records.foldl indexHeader []).find? (·.name == g.name) = some h :=
      Option.isSome_iff_exists.mp (List.find?_isSome.mpr ⟨g, member, by simp⟩)
    obtain ⟨last, same⟩ := find?_indexed.mp found
    exact same ▸ List.mem_map_of_mem last.mem
  · intro here
    obtain ⟨g, member, rfl⟩ := List.mem_map.mp here
    obtain ⟨h, last, same⟩ : ∃ h, IsLast Header.name records h ∧ h.name = g.name :=
      exists_isLast member
    exact same ▸ List.mem_map_of_mem (List.mem_of_find?_eq_some (find?_indexed.mpr ⟨last, rfl⟩))

end Zip

namespace Verification
open Zip

variable {archive bytes : ByteArray} {records : List Header} {verifier : Verifier} {path name : String}
  {d : Disk} {v : VerifiedManifest}

/-- A check that ends well: no record has another name than the two, and the last record of each is
the one that was read. -/
structure Accepts (verifier : Verifier) (archive : ByteArray) (records : List Header)
    (v : VerifiedManifest) : Prop where
  known : ∀ r ∈ records, r.name = innerName ∨ r.name = signatureName
  inner : ∃ r, IsLast Header.name records r ∧ r.name = innerName ∧ content archive r = .ok v.inner
  signature : ∃ r bytes, IsLast Header.name records r ∧ r.name = signatureName ∧
    content archive r = .ok bytes ∧ verifier v.inner bytes = true
  opened : acceptInner reader v.inner = .ok v

theorem readEntry_ok {index : Index} :
    readEntry path index name = .ok bytes ↔ index.content? name = some (.ok bytes) := by
  unfold readEntry
  split <;> simp [*]

theorem content?_ok {directory : Directory} :
    (directory.index archive).content? name = some (.ok bytes) ↔
      ∃ r, IsLast Header.name directory.headers r ∧ r.name = name ∧ content archive r = .ok bytes := by
  have found : ∀ r, directory.indexed.headers.find? (·.name == name) = some r ↔
      IsLast Header.name directory.headers r ∧ r.name = name := fun _ => find?_indexed
  simp only [Directory.index, Option.map_eq_some_iff, found, and_assoc]

theorem acceptInner_inner {inner : ByteArray} (opened : acceptInner reader inner = .ok v) :
    v.inner = inner := by
  unfold acceptInner at opened
  split at opened
  · cases opened
  · cases opened
    rfl

theorem isExpected_iff : isExpected name = true ↔ name = innerName ∨ name = signatureName := by
  simp [isExpected]

theorem unexpected_none_iff {names : List String} :
    names.find? (!isExpected ·) = none ↔ ∀ n ∈ names, n = innerName ∨ n = signatureName := by
  simp [List.find?_eq_none, isExpected_iff]

theorem unexpected_none {directory : Directory} :
    directory.indexed.names.find? (!isExpected ·) = none ↔
      ∀ r ∈ directory.headers, r.name = innerName ∨ r.name = signatureName := by
  have names : ∀ name, name ∈ directory.indexed.names ↔ name ∈ directory.headers.map Header.name :=
    fun _ => mem_indexed
  rw [unexpected_none_iff]
  simp [names]

theorem verifyArchive_ok :
    verifyArchive reader verifier path archive = .ok v ↔
      ∃ records, records? archive = some records ∧ Accepts verifier archive records v := by
  unfold verifyArchive reader records?
  cases directoryBelow? archive (archive.size - 21) with
  | none => simp [throw_ok]
  | some directory =>
    simp only [Option.map_some, Option.some.injEq, exists_eq_left']
    constructor
    · intro accepted
      split at accepted
      · cases accepted
      rename_i known
      simp only [bind_ok, readEntry_ok, content?_ok] at accepted
      obtain ⟨inner, innerRead, signature, ⟨r, last, named, held⟩, checked⟩ := accepted
      split at checked
      · rename_i agreed
        obtain rfl := acceptInner_inner checked
        exact ⟨unexpected_none.mp (Option.eq_none_iff_forall_ne_some.mpr known), innerRead,
          ⟨r, signature, last, named, held, agreed⟩, checked⟩
      · cases checked
    · intro accepts
      obtain ⟨r, signature, last, named, held, agreed⟩ := accepts.signature
      have known : (directory.index archive).names.find? (!isExpected ·) = none :=
        unexpected_none.mpr accepts.known
      rw [known]
      dsimp only
      rw [readEntry_ok.mpr (content?_ok.mpr accepts.inner),
        readEntry_ok.mpr (content?_ok.mpr ⟨r, last, named, held⟩)]
      exact (if_pos agreed).trans accepts.opened

/- A file is accepted by the last records of the two names, whatever their records before them hold. -/
theorem accepted_iff :
    verifyManifest verifier path d = .ok v ↔
      ∃ archive records, d.content path = .ok archive ∧ records? archive = some records ∧
        Accepts verifier archive records v := by
  unfold verifyManifest verifyManifestBy
  split
  · rename_i archive held
    simp [held, verifyArchive_ok]
  · rename_i stuck
    simp [stuck]
  · rename_i stuck
    simp [stuck]

/- An accepted archive has no records but those of the two names, and it has each name once, which makes
   two records, just if it repeats none. -/
theorem two_records_iff_distinct (accepted : verifyManifest verifier path d = .ok v) :
    ∃ archive records, d.content path = .ok archive ∧ records? archive = some records ∧
      Accepts verifier archive records v ∧
      ((records.map Header.name).Perm [innerName, signatureName] ↔
        (records.map Header.name).Nodup) := by
  obtain ⟨archive, records, held, found, accepts⟩ := accepted_iff.mp accepted
  refine ⟨archive, records, held, found, accepts, fun perm => ?_, fun distinct => ?_⟩
  · exact perm.nodup_iff.mpr (by decide)
  · refine (List.perm_ext_iff_of_nodup distinct (by decide)).mpr fun name => ?_
    obtain ⟨inner, last, innerNamed, _⟩ := accepts.inner
    obtain ⟨signature, _, last', signatureNamed, _⟩ := accepts.signature
    constructor
    · intro here
      obtain ⟨r, member, rfl⟩ := List.mem_map.mp here
      simpa using accepts.known r member
    · intro here
      obtain rfl | rfl : name = innerName ∨ name = signatureName := by simpa using here
      · exact innerNamed ▸ List.mem_map_of_mem last.mem
      · exact signatureNamed ▸ List.mem_map_of_mem last'.mem

/-! ### Samples -/

def bareArchive (comment : String) : Zip.Archive := ⟨comment, []⟩

theorem bareArchive_opened (comment : String) (fits : (bareArchive comment).Fits) :
    acceptInner reader (bareArchive comment).encode =
      .ok ⟨(bareArchive comment).encode, [], Sha256.fingerprint (bareArchive comment).encode⟩ :=
  acceptInner_of_listing fits.readsBack

def plainArchive : Zip.Archive :=
  ⟨"", [⟨innerName, (bareArchive "1").encode⟩, ⟨signatureName, ⟨#[]⟩⟩]⟩

def doubledArchive : Zip.Archive :=
  ⟨"", [⟨innerName, (bareArchive "1").encode⟩, ⟨signatureName, ⟨#[]⟩⟩,
    ⟨innerName, (bareArchive "2").encode⟩]⟩

def archiveDisk : Disk :=
  (({ : Disk }).put ["plain.zip"] (.file plainArchive.encode)).put ["doubled.zip"]
    (.file doubledArchive.encode)

theorem two_records_iff_distinct_sample : ∃ v records,
    verifyManifest (fun _ _ => true) "/plain.zip" archiveDisk = .ok v ∧
    records? plainArchive.encode = some records ∧
    (records.map Header.name).Perm [innerName, signatureName] := by
  have fits : plainArchive.Fits := Archive.fits_of_checks (by decide +kernel)
  have stored : archiveDisk.content "/plain.zip" = .ok plainArchive.encode := rfl
  obtain ⟨v, accepted⟩ : ∃ v, verifyManifest (fun _ _ => true) "/plain.zip" archiveDisk = .ok v := by
    rw [verifyManifest, verifyManifestBy, stored]
    exact ⟨_, (verifyArchive_of_listing "/plain.zip" fits.readsBack).trans ((if_pos rfl).trans
      (bareArchive_opened "1" (Archive.fits_of_checks (by decide +kernel))))⟩
  obtain ⟨archive, records, held, found, -, two⟩ := two_records_iff_distinct accepted
  obtain rfl := Except.ok.inj (held.symm.trans stored)
  have directory := directoryBelow?_encode fits.names fits.room fits.comment fits.silent
  obtain rfl : headersFrom 0 plainArchive.entries = records := by
    simpa [records?, directory] using found
  refine ⟨v, _, accepted, found, two.mpr ?_⟩
  rw [headersFrom_names]
  exact fits.distinct

/- Of three records two have one name. The archive is accepted for what the later one holds. -/
theorem doubled_record_accepted : ∃ v records,
    verifyManifest (fun _ _ => true) "/doubled.zip" archiveDisk = .ok v ∧
    v.inner = (bareArchive "2").encode ∧
    archiveDisk.content "/doubled.zip" = .ok doubledArchive.encode ∧
    records? doubledArchive.encode = some records ∧
    records.map (fun r => (r.name, content doubledArchive.encode r)) =
      [(innerName, .ok (bareArchive "1").encode), (signatureName, .ok ⟨#[]⟩),
        (innerName, .ok (bareArchive "2").encode)] := by
  have names : ∀ e ∈ doubledArchive.entries, e.name.utf8ByteSize < capacity 2 := by decide +kernel
  have room : doubledArchive.files.size + doubledArchive.directory.size < capacity 8 := by decide +kernel
  have found : records? doubledArchive.encode = some (headersFrom 0 doubledArchive.entries) := by
    rw [records?, directoryBelow?_encode names room (by decide) (by decide)]
    rfl
  have contents := contents_encode names room
  obtain ⟨first, rest, spelled, one, contents'⟩ := List.map_eq_cons_iff.mp contents
  obtain ⟨second, rest, rfl, two, contents'⟩ := List.map_eq_cons_iff.mp contents'
  obtain ⟨third, rest, rfl, three, contents'⟩ := List.map_eq_cons_iff.mp contents'
  obtain rfl := List.map_eq_nil_iff.mp contents'
  obtain ⟨firstName, -⟩ := Prod.mk.inj one
  obtain ⟨secondName, secondContent⟩ := Prod.mk.inj two
  obtain ⟨thirdName, thirdContent⟩ := Prod.mk.inj three
  have accepts : Accepts (fun _ _ => true) doubledArchive.encode
      (headersFrom 0 doubledArchive.entries)
      ⟨(bareArchive "2").encode, [], Sha256.fingerprint (bareArchive "2").encode⟩ := by
    rw [spelled]
    refine ⟨by simp [firstName, secondName, thirdName],
      ⟨third, ⟨[first, second], [], rfl, by simp⟩, thirdName, thirdContent⟩,
      ⟨second, ⟨#[]⟩, ⟨[first], [third], rfl, ?_⟩, secondName, secondContent, rfl⟩,
      bareArchive_opened "2" (Archive.fits_of_checks (by decide +kernel))⟩
    simp [secondName, thirdName, innerName, signatureName]
  exact ⟨_, _, accepted_iff.mpr ⟨_, _, rfl, found, accepts⟩, rfl, rfl, found, contents⟩

end Verification

end SignedManifest
