import SignedManifest.Yaml.Token
/-!
The document of a YAML text as a tree. An alias stands for the node that its anchor names; inside
that very node it stands for an empty sequence.
-/
namespace SignedManifest.Yaml

inductive Node where
  /-- A text. `plain` tells that it stood without quotes and in no block. -/
  | scalar (tag : Option String) (plain : Bool) (text : String)
  | sequence (items : List Node)
  | mapping (entries : List (Node × Node))
  deriving Inhabited

def Node.empty : Node := .scalar none true ""

structure Builder where
  tokens : List Token
  anchors : List (String × Node) := []
  handles : List (String × String) := []

abbrev Build := StateT Builder Option

namespace Build

def peek : Build Token := return (← get).tokens.headD .streamEnd

def advance : Build Unit := modify fun b => { b with tokens := b.tokens.tail }

def standardHandles : List (String × String) := [("!", "!"), ("!!", "tag:yaml.org,2002:")]

def expand (handle suffix : String) : Build String := do
  if handle = "" then return suffix
  let some expansion := ((← get).handles ++ standardHandles).lookup handle | failure
  return expansion ++ suffix

def tagHere? : Build (Option String) := do
  match ← peek with
  | .tag handle suffix =>
    advance
    some <$> expand handle suffix
  | _ => return none

def anchorHere? : Build (Option String) := do
  match ← peek with
  | .anchor name =>
    advance
    return some name
  | _ => return none

def properties : Build (Option String × Option String) := do
  match ← anchorHere? with
  | some name => return (some name, ← tagHere?)
  | none =>
    let tag ← tagHere?
    return (← anchorHere?, tag)

def setAnchor (name : Option String) (node : Node) : Build Unit :=
  match name with
  | none => pure ()
  | some name => modify fun b => { b with anchors := (name, node) :: b.anchors }

def sees (l : List Token) : Build Bool := return l.contains (← peek)

mutual

/-- A node. Blocks may start only where `block` is set, and items that are no further right than
their key only where `level` is set. -/
def node (block level : Bool) : Nat → Build Node
  | 0 => failure
  | n + 1 => do
    match ← peek with
    | .alias name =>
      advance
      let some target := (← get).anchors.lookup name | failure
      return target
    | _ =>
      let (name, tag) ← properties
      setAnchor name (.sequence [])
      let result ← content block level name.isSome tag n
      setAnchor name result
      return result

def content (block level named : Bool) (tag : Option String) : Nat → Build Node
  | 0 => failure
  | n + 1 => do
    match ← peek with
    | .item => if level then return .sequence (← levelItems n) else missing named tag
    | .scalar plain text =>
      advance
      return .scalar tag plain text
    | .sequenceOpen =>
      advance
      return .sequence (← flowItems true n)
    | .mappingOpen =>
      advance
      return .mapping (← flowEntries true n)
    | .blockSequenceStart =>
      if block then
        advance
        return .sequence (← blockItems n)
      else missing named tag
    | .blockMappingStart =>
      if block then
        advance
        return .mapping (← blockEntries n)
      else missing named tag
    | _ => missing named tag

/-- Nothing, which is a node only with an anchor or a tag. -/
def missing (named : Bool) (tag : Option String) : Build Node :=
  if named || tag.isSome then return .scalar tag true "" else failure

def nodeUnless (ends : List Token) (block level : Bool) : Nat → Build Node
  | 0 => failure
  | n + 1 => do if ← sees ends then return .empty else node block level n

def blockItems : Nat → Build (List Node)
  | 0 => failure
  | n + 1 => do
    match ← peek with
    | .item =>
      advance
      let x ← nodeUnless [.item, .blockEnd] true false n
      return x :: (← blockItems n)
    | .blockEnd =>
      advance
      return []
    | _ => failure

def levelItems : Nat → Build (List Node)
  | 0 => failure
  | n + 1 => do
    if ← sees [.item] then
      advance
      let x ← nodeUnless [.item, .key, .value, .blockEnd] true false n
      return x :: (← levelItems n)
    else return []

def blockEntries : Nat → Build (List (Node × Node))
  | 0 => failure
  | n + 1 => do
    match ← peek with
    | .key =>
      advance
      let ends : List Token := [.key, .value, .blockEnd]
      let k ← nodeUnless ends true true n
      let v ← valueHere ends true n
      return (k, v) :: (← blockEntries n)
    | .blockEnd =>
      advance
      return []
    | _ => failure

def valueHere (ends : List Token) (block : Bool) : Nat → Build Node
  | 0 => failure
  | n + 1 => do
    if ← sees [.value] then
      advance
      nodeUnless ends block block n
    else return .empty

/-- Items up to the closing bracket. A pair among them is a mapping of its own. -/
def flowItems (first : Bool) : Nat → Build (List Node)
  | 0 => failure
  | n + 1 => do
    if ← sees [.sequenceClose] then
      advance
      return []
    if !first then if ← sees [.comma] then advance else failure
    match ← peek with
    | .sequenceClose =>
      advance
      return []
    | .key =>
      advance
      let ends : List Token := [.comma, .sequenceClose]
      if ← sees (.value :: ends) then
        advance
        let v ← valueHere ends false n
        return .mapping [(.empty, v)] :: (← flowItems false n)
      let k ← node false false n
      let v ← valueHere ends false n
      return .mapping [(k, v)] :: (← flowItems false n)
    | _ =>
      let x ← node false false n
      return x :: (← flowItems false n)

def flowEntries (first : Bool) : Nat → Build (List (Node × Node))
  | 0 => failure
  | n + 1 => do
    if ← sees [.mappingClose] then
      advance
      return []
    if !first then if ← sees [.comma] then advance else failure
    match ← peek with
    | .mappingClose =>
      advance
      return []
    | .key =>
      advance
      let ends : List Token := [.comma, .mappingClose]
      let k ← nodeUnless (.value :: ends) false false n
      let v ← valueHere ends false n
      return (k, v) :: (← flowEntries false n)
    | _ =>
      let k ← node false false n
      return (k, .empty) :: (← flowEntries false n)

end

/-- Directives: one version at most, and every handle at most once. -/
def directives (versions : Nat) : Nat → Build Unit
  | 0 => failure
  | n + 1 => do
    match ← peek with
    | .version major minor =>
      if versions ≠ 0 ∨ major ≠ 1 ∨ (minor ≠ 1 ∧ minor ≠ 2) then failure
      advance
      directives 1 n
    | .tagShorthand handle expansion =>
      if ((← get).handles.lookup handle).isSome then failure
      modify fun b => { b with handles := (handle, expansion) :: b.handles }
      advance
      directives versions n
    | _ => return ()

def atFrame : Build Bool := do
  match ← peek with
  | .version _ _ => return true
  | .tagShorthand _ _ => return true
  | .documentStart => return true
  | .documentEnd => return true
  | .streamEnd => return true
  | _ => return false

def skipEnds : Nat → Build Unit
  | 0 => failure
  | n + 1 => do
    if ← sees [.documentEnd] then
      advance
      skipEnds n

def document (fuel : Nat) : Build (Option Node) := do
  if ← sees [.streamEnd] then return none
  let root ←
    if (← atFrame) && !(← sees [.documentEnd]) then do
      directives 0 fuel
      if !(← sees [.documentStart]) then failure
      advance
      if ← atFrame then pure .empty else node true false fuel
    else node true false fuel
  skipEnds fuel
  if ← sees [.streamEnd] then return some root else failure

end Build

/-- The document of a text: none if the text is malformed or has several, and none inside if it has
no document at all. -/
def document? (text : String) : Option (Option Node) := do
  let tokens ← tokens? text
  let (root, _) ← (Build.document (8 * tokens.length + 8)).run { tokens }
  return root

end SignedManifest.Yaml
