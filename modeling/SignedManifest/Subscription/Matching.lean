import SignedManifest.Subscription.Record
/-!
Which incoming subscription continues which existing one. Terms alone decide; local ids take no
part. Within a group of one upstream pool three passes follow each other:

* identity: the same upstream entitlement and consumer;
* quantity: the same quantity;
* rank: what is left on both sides, by quantity from the largest down, in pairs.

In the first two passes the incoming records choose in input order, each the first one still free.
-/
namespace SignedManifest.Subscription

inductive MatchPass where
  | identity
  | quantity
  | rank
  deriving DecidableEq, Repr

abbrev Placed := Terms × Nat

structure Match where
  incoming : Nat
  existing : Nat
  pass : MatchPass
  deriving DecidableEq, Repr

def takeFirst? {β : Type} (p : β → Bool) : List β → Option (β × List β)
  | [] => none
  | e :: r => if p e then some (e, r) else (takeFirst? p r).map fun (x, others) => (x, e :: others)

structure Claims (α β : Type) where
  pairs : List (α × β)
  unmatched : List α
  free : List β

/-- Each element on the left takes the first free one on the right that suits it. -/
def claim {α β : Type} (suits : α → β → Bool) : List α → List β → Claims α β
  | [], free => ⟨[], [], free⟩
  | a :: r, free =>
    match takeFirst? (suits a) free with
    | some (b, others) =>
      let c := claim suits r others
      { c with pairs := (a, b) :: c.pairs }
    | none =>
      let c := claim suits r free
      { c with unmatched := a :: c.unmatched }

def sameIdentity (i e : Placed) : Bool := i.1.identity.isSome && i.1.identity == e.1.identity

def sameQuantity (i e : Placed) : Bool := i.1.quantity == e.1.quantity

/-- From the largest quantity down; equal quantities keep their order. -/
def byQuantity (l : List Placed) : List Placed :=
  l.mergeSort fun a b => decide (b.1.quantity ≤ a.1.quantity)

def matchesOf (pass : MatchPass) (pairs : List (Placed × Placed)) : List Match :=
  pairs.map fun (i, e) => ⟨i.2, e.2, pass⟩

def groupMatches (existing incoming : List Placed) : List Match :=
  let identity := claim sameIdentity incoming existing
  let quantity := claim sameQuantity identity.unmatched identity.free
  let rank := (byQuantity quantity.unmatched).zip (byQuantity quantity.free)
  matchesOf .identity identity.pairs ++ matchesOf .quantity quantity.pairs ++ matchesOf .rank rank

def members (g : Option String) (ts : List Terms) : List Placed :=
  ts.zipIdx.filter fun t => t.1.group == g

def allMatches (existing incoming : List Terms) : List Match :=
  (incoming.map Terms.group).eraseDups.flatMap fun g =>
    groupMatches (members g existing) (members g incoming)

def matchAt? (found : List Match) (i : Nat) : Option Match :=
  found.find? fun m => m.incoming == i

end SignedManifest.Subscription
