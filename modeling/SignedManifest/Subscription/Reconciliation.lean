import SignedManifest.Json.Content
import SignedManifest.Subscription.Matching
/-!
The outcome for every incoming record: it takes over the id of the existing record that it
continues, or it is new and keeps its own. Every owner keeps records, and batches are imported into
them.
-/
namespace SignedManifest.Subscription

open Json

inductive Resolution where
  | inherited (id : String) (pass : MatchPass)
  | new (id : String)
  deriving DecidableEq, Repr

namespace Resolution

def id : Resolution → String
  | inherited id _ => id
  | new id => id

def pass? : Resolution → Option MatchPass
  | inherited _ pass => some pass
  | new _ => none

end Resolution

structure Reconciliation where
  resolutions : List Resolution := []
  deriving DecidableEq, Repr

namespace Reconciliation

def id? (r : Reconciliation) (i : Nat) : Option String := r.resolutions[i]?.map Resolution.id

def count (r : Reconciliation) (pass : MatchPass) : Nat :=
  r.resolutions.countP fun x => x.pass? == some pass

def apply (r : Reconciliation) (incoming : List Record) : List Record :=
  incoming.zipWith (fun record (resolution : Resolution) => { record with id := resolution.id })
    r.resolutions

end Reconciliation

def resolve (existing : List Record) (record : Record) (m : Option Match) : Resolution :=
  match m.bind fun m => existing[m.existing]?.map fun e => Resolution.inherited e.id m.pass with
  | some r => r
  | none => .new record.id

def reconcile (existing incoming : List Record) : Reconciliation :=
  let found := allMatches (existing.map Record.toTerms) (incoming.map Record.toTerms)
  ⟨incoming.zipIdx.map fun (record, i) => resolve existing record (matchAt? found i)⟩

/-! ### JSON form -/

def MatchPass.names : List (String × MatchPass) :=
  [("identity", .identity), ("quantity", .quantity), ("rank", .rank)]

def MatchPass.codec : Codec MatchPass := Codec.choice MatchPass.names

namespace Resolution

inductive Kind where
  | inherited
  | new
  deriving DecidableEq

def Kind.names : List (String × Kind) := [("inherited", .inherited), ("new", .new)]

def Kind.title : Kind → String
  | inherited => "struct variant Resolution::Inherited with 2 elements"
  | new => "struct variant Resolution::New with 1 element"

def json : Resolution → Json
  | inherited id pass =>
    .obj [("resolution", .str "inherited"), ("id", .str id), ("pass", MatchPass.codec.write pass)]
  | new id => .obj [("resolution", .str "new"), ("id", .str id)]

structure Parts where
  id : Option String := none
  pass : Option MatchPass := none

def Parts.add (kind : Kind) (p : Parts) (name : String) (c : Content) : Except DataError Parts :=
  if name = "id" then
    if p.id.isSome then throw (.duplicateField name)
    else return { p with id := some (← c.text) }
  else if name = "pass" ∧ kind = .inherited then
    if p.pass.isSome then throw (.duplicateField name)
    else return { p with pass := some (← c.choice MatchPass.names) }
  else return p

def ofEntries (kind : Kind) (entries : List (String × Content)) : Except DataError Resolution := do
  let p ← entries.foldlM (fun p e => p.add kind e.1 e.2) ({} : Parts)
  match p.id, kind, p.pass with
  | none, _, _ => throw (.missingField "id")
  | some id, .new, _ => return new id
  | some _, .inherited, none => throw (.missingField "pass")
  | some id, .inherited, some pass => return inherited id pass

def ofItems (kind : Kind) (items : List Content) : Except DataError Resolution := do
  match kind, items with
  | _, [] => throw (.invalidLength 0 kind.title)
  | .new, id :: r =>
    let id ← id.text
    if r.isEmpty then return new id
    else throw (.invalidLength (r.length + 1) "1 element in sequence")
  | .inherited, [id] =>
    let _ ← id.text
    throw (.invalidLength 1 kind.title)
  | .inherited, id :: pass :: r =>
    let id ← id.text
    let pass ← pass.choice MatchPass.names
    if r.isEmpty then return inherited id pass
    else throw (.invalidLength (r.length + 2) "2 elements in sequence")

open Scan

def readTag : Scan Kind := do
  if (← peekPart) = some '"' then
    advance
    match Codec.variant Kind.names (← string) with
    | .ok kind => return kind
    | .error e => fail e
  else mismatch "variant identifier"

/-- The tag and the other members of an object, the tag wherever it stands. -/
def readMembers (depth : Nat) : Nat → (first : Bool) → Option Kind → List (String × Content) →
    Scan (Option Kind × List (String × Content))
  | 0, _, _, _ => malformed
  | n + 1, first, tag, acc => do
    if ← nextKey first then
      let k ← key
      if k = "resolution" then
        if tag.isSome then fail (.duplicateField k)
        punctuation ':'
        let kind ← readTag
        readMembers depth n false (some kind) acc
      else
        punctuation ':'
        let v ← Content.read depth
        readMembers depth n false tag ((k, v) :: acc)
    else return (tag, acc.reverse)

def ofExcept (r : Except DataError Resolution) : Scan Resolution :=
  match r with
  | .ok a => return a
  | .error e => fail e

/-- A resolution in either form: an object with the tag among its members, or an array that starts
with the tag. -/
def read : Reader Resolution := fun depth => do
  match ← peekPart with
  | some '\x7b' =>
    enter (fun d => do
      let (tag, entries) ← readMembers d ((← get).length + 1) true none []
      match tag with
      | none => fail (.missingField "resolution")
      | some kind =>
        punctuation '\x7d'
        ofExcept (ofEntries kind entries)) depth
  | some '[' =>
    enter (fun d => do
      if ← nextItem true then
        let kind ← readTag
        let items ← items (Content.read d) ((← get).length + 1) false []
        punctuation ']'
        ofExcept (ofItems kind items)
      else fail (.missingField "resolution")) depth
  | _ => mismatch "internally tagged enum Resolution"

def codec : Codec Resolution := ⟨read, json⟩

end Resolution

def Reconciliation.codec : Codec Reconciliation where
  read depth := Reconciliation.mk <$> (Codec.list Resolution.codec).read depth
  write r := (Codec.list Resolution.codec).write r.resolutions

/-! ### The records of owners -/

abbrev Store := SortedMap String (List Record)

inductive Keep where
  | replace
  | merge
  | none
  deriving DecidableEq, Repr

def Store.of (s : Store) (owner : String) : List Record := (s.get? owner).getD []

/-- An owner's records after a batch came in under its resolved ids: the batch alone, or the records
with other ids before the batch, or as they were. -/
def Keep.settle (keep : Keep) (old applied : List Record) : List Record :=
  match keep with
  | replace => applied
  | merge => old.filter (fun r => !(applied.map Record.id).contains r.id) ++ applied
  | none => old

def Store.reconcile (s : Store) (owner : String) (incoming : List Record) : Reconciliation :=
  Subscription.reconcile (s.of owner) incoming

def Store.afterImport (s : Store) (owner : String) (incoming : List Record) (keep : Keep) : Store :=
  s.insert owner (keep.settle (s.of owner) ((s.reconcile owner incoming).apply incoming))

end SignedManifest.Subscription
