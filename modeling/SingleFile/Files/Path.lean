import SingleFile.Text.Search

/-!
# Paths

A path is a text of names between slashes.  Repeated slashes and inner dots do not count, and a path
that starts with a slash is absolute.  Going up is a matter of the text alone: `Path.normalize` drops
dots and lets every `..` take back the part before it.
-/

namespace SingleFile

inductive Path.Part where
  | root
  | here
  | up
  | name (cs : List Char)
deriving DecidableEq, Repr

namespace Path

def isAbsolute (path : List Char) : Bool := path.head? = some '/'

/-- The part that a segment stands for; empty segments and dots stand for none. -/
def innerPart? (segment : List Char) : Option Part :=
  if segment = [] ∨ segment = ['.'] then none
  else if segment = ['.', '.'] then some .up
  else some (.name segment)

/-- The parts of a path.  A dot counts only at the start of a path that is not absolute. -/
def parts (path : List Char) : List Part :=
  let segments := splitAt '/' path
  if isAbsolute path then .root :: segments.filterMap innerPart?
  else if segments.head? = some ['.'] then .here :: segments.filterMap innerPart?
  else segments.filterMap innerPart?

/-- One path after another; an absolute one stands alone. -/
def join (base added : List Char) : List Char :=
  if isAbsolute added then added
  else if base.isEmpty || base.getLast? = some '/' then base ++ added
  else base ++ '/' :: added

def Part.chars : Part → List Char
  | root => ['/']
  | here => ['.']
  | up => ['.', '.']
  | name cs => cs

def ofParts (ps : List Part) : List Char := ps.foldl (fun path p => join path p.chars) []

/-- The parts before the last one; there are none before the root. -/
def dropLast? : List Part → Option (List Part)
  | [] => none
  | [.root] => none
  | _ :: before => some before

/-- Takes one part of a path into account; the parts so far are listed from the last to the
first. -/
def normalStep (before : List Part) : Part → List Part
  | .here => before
  | .up => (dropLast? before).getD (.up :: before)
  | p => p :: before

/-- The path without dots, where every `..` takes back the part before it if there is one. -/
def normalize (path : List Char) : List Char :=
  ofParts ((parts path).foldl normalStep []).reverse

/-- The segments of a path from the last that counts; `first` tells that the one at the end of
the list starts the path. -/
def dropSilent (absolute : Bool) : List (List Char) → List (List Char)
  | [] => []
  | [first] => if first = [] ∨ (absolute ∧ first = ['.']) then [] else [first]
  | segment :: before =>
    if segment = [] ∨ segment = ['.'] then dropSilent absolute before else segment :: before

/-- The segments after the root, from the last to the first. -/
def backwards (path : List Char) : List (List Char) :=
  (splitAt '/' (if isAbsolute path then path.drop 1 else path)).reverse

/-- The text of segments that are listed from the last to the first. -/
def ofBackwards (absolute : Bool) (segments : List (List Char)) : List Char :=
  let text := List.intercalate ['/'] segments.reverse
  if absolute then '/' :: text else text

/-- The path without its last part; nothing for the root and for the empty path. -/
def parent? (path : List Char) : Option (List Char) :=
  let absolute := isAbsolute path
  match dropSilent absolute (backwards path) with
  | [] => none
  | _ :: before => some (ofBackwards absolute (dropSilent absolute before))

/-- The path without its last part, or the empty path. -/
def parent (path : List Char) : List Char := (parent? path).getD []

/-- The last part of a path where it is a name. -/
def fileName? (path : List Char) : Option (List Char) :=
  match (parts path).getLast? with
  | some (.name cs) => some cs
  | _ => none

/-- A path and the paths above it; `fuel` bounds their number. -/
def ancestorsFrom : Nat → List Char → List (List Char)
  | 0, path => [path]
  | fuel + 1, path =>
    match parent? path with
    | some above => path :: ancestorsFrom fuel above
    | none => [path]

/-- A path and the paths above it, the nearest first. -/
def ancestors (path : List Char) : List (List Char) := ancestorsFrom path.length path

/-- What a reference in a file means, told from the place of the file. -/
def relativeTo (file reference : String) : String :=
  String.ofList (normalize (join (parent file.toList) reference.toList))

end Path

end SingleFile
