import SingleFile.SourceMap.Basic

/-!
# Drafting mapped code

A draft is code that grows at its end together with its mappings.  A fragment brings the mappings
of its own map, moved to where the fragment lands.  Text may also be inserted before the last
occurrence of a pattern; the mappings from there on move along.  Lines and columns are natural numbers
here; a draft is one that counts in words of 32 bits as long as they fit.
-/

namespace SingleFile

/-- Code with mappings.  `tip` is the position after the code, `contents` the first content
embedded for each source. -/
structure Draft where
  code : List Char := []
  tip : Position := .origin
  entries : List MapEntry := []
  contents : List (String × String) := []
deriving Repr

/-- Where a position of a fragment lies when the fragment starts at `base`. -/
def Position.offsetBy (base p : Position) : Position :=
  if p.line = 0 then ⟨base.line, base.column + p.column⟩ else ⟨base.line + p.line, p.column⟩

/-- Where a position lies after a text that ends at `size` has been inserted at `spot`. -/
def Position.shift (p spot size : Position) : Position :=
  if p < spot then p
  else if p.line = spot.line then
    if size.line = 0 then ⟨p.line, p.column + size.column⟩
    else ⟨p.line + size.line, size.column + (p.column - spot.column)⟩
  else ⟨p.line + size.line, p.column⟩

namespace Draft

def push (d : Draft) (text : List Char) : Draft :=
  { d with code := d.code ++ text, tip := d.tip.after text }

def newline (d : Draft) : Draft := d.push ['\n']

def atLineStart (d : Draft) : Bool :=
  match d.code.getLast? with
  | none => true
  | some c => c = '\n'

/-- Adds the contents of sources that have none yet. -/
def addContents : List (String × String) → List (String × String) → List (String × String)
  | known, [] => known
  | known, (s, c) :: rest =>
    if known.any (·.1 == s) then addContents known rest else addContents (known ++ [(s, c)]) rest

def embedded (map : SourceMap) : List (String × String) :=
  map.sourceNames.zipIdx.filterMap fun (s, i) => (map.contentAt i).map (s, ·)

/-- The mappings of a map that have a source, for a fragment that starts at `base`. -/
def movedEntries (base : Position) (map : SourceMap) : List MapEntry :=
  (map.entries.filter (·.source.isSome)).map fun e =>
    { e with generated := base.offsetBy e.generated }

/-- Appends a fragment with its map; without a map it is appended as text. -/
def pushFragment (d : Draft) (code : List Char) (map : Option SourceMap) : Draft :=
  match map with
  | none => d.push code
  | some map =>
    { d with
      entries := d.entries ++ movedEntries d.tip map
      contents := addContents d.contents (embedded map) }.push code

/-- Inserts text right before the last occurrence of a pattern. -/
def insertBeforeLast? (d : Draft) (pattern text : List Char) : Option Draft :=
  match splitLast? pattern d.code with
  | none => none
  | some (front, _) =>
    let spot := Position.origin.after front
    let size := Position.origin.after text
    some { d with
      code := front ++ text ++ d.code.drop front.length
      tip := d.tip.shift spot size
      entries := d.entries.map fun e => { e with generated := e.generated.shift spot size } }

/-- The code and its map.  Only sources that some mapping points into are listed. -/
def finish (d : Draft) (file : Option String) : String × SourceMap :=
  let entries := stableSort (fun a b => decide (a.generated ≤ b.generated)) d.entries
  let used := d.contents.filter fun c => entries.any (·.source == some c.1)
  (String.ofList d.code, SourceMap.ofEntries file none entries used)

end Draft

end SingleFile
