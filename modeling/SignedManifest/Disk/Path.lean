/-!
File paths as UTF-8 text: segments between slashes, where empty ones and single dots add nothing to what
the path names. Operations keep the spelling of what they do not change.
-/
namespace SignedManifest.Path

def splitChars : List Char → List (List Char)
  | [] => [[]]
  | c :: r =>
    if c = '/' then [] :: splitChars r
    else
      match splitChars r with
      | [] => [[c]]
      | s :: t => (c :: s) :: t

def segments (path : String) : List String := (splitChars path.toList).map String.ofList

def isAbsolute (path : String) : Bool := path.toList.head? == some '/'

def join (base path : String) : String :=
  if isAbsolute path then path
  else if base = "" ∨ base.toList.getLast? = some '/' then base ++ path
  else base ++ "/" ++ path

/-- What a path is made of: whether it starts at the root, and its names. A dot counts only at the
start of a relative path. -/
def components (path : String) : Bool × List String :=
  let names (l : List String) : List String := l.filter fun s => s ≠ "" ∧ s ≠ "."
  match segments path with
  | "." :: r => (false, "." :: names r)
  | l => (isAbsolute path, names l)

def same (a b : String) : Bool := components a == components b

/-- The segments without those at the end that add nothing; the first one stays. -/
def dropBlankEnd (l : List String) : List String :=
  match l with
  | [] => []
  | first :: r =>
    first :: (r.reverse.dropWhile fun s => s == "" || s == ".").reverse

def parent? (path : String) : Option String :=
  match dropBlankEnd (segments path) with
  | [] => none
  | [""] => none
  | [_] => some ""
  | l =>
    match dropBlankEnd l.dropLast with
    | [""] => some "/"
    | above => some ("/".intercalate above)

def fileName? (path : String) : Option String :=
  match (dropBlankEnd (segments path)).getLast? with
  | some s => if s = "" ∨ s = "." ∨ s = ".." then none else some s
  | none => none

def onlyName? (path : String) : Option String :=
  match components path with
  | (false, [s]) => if s = "." ∨ s = ".." then none else some s
  | _ => none

/-- A name that is one component of a path and spelled as such, without separators of any kind. -/
def isPlainName (name : String) : Bool :=
  onlyName? name == some name && !name.toList.any fun c => c == '/' || c == '\\'

end SignedManifest.Path
