import SingleFile.Text.Position
import SingleFile.Text.Search
import SingleFile.Order.Stable

/-!
# Source maps

A source map lists mappings from positions of a generated text to positions in sources, in the
order of the generated positions.  `SourceMap.original?` answers for any generated position, and
`SourceMap.ofEntries` makes a map from mappings that name their sources.
-/

namespace SingleFile

/-- One mapping.  Sources and names are given by index; `original` means something only where
there is a source.  A mapping with `range` also answers for the columns after its own. -/
structure Mapping where
  generated : Position
  original : Position
  source : Option Nat
  name : Option Nat
  range : Bool
deriving DecidableEq, Repr

/-- A source map.  `contents` lines up with `sources`; missing entries count as absent. -/
structure SourceMap where
  file : Option String
  sourceRoot : Option String
  sources : List String
  contents : List (Option String)
  names : List String
  mappings : List Mapping
  ignored : List Nat
  debugId : Option String
deriving DecidableEq, Repr

/-- What a position resolves to. -/
structure Origin where
  source : String
  position : Position
  name : Option String
deriving DecidableEq, Repr

/-- A mapping with its source and name spelled out. -/
structure MapEntry where
  generated : Position
  original : Position
  source : Option String
  name : Option String
deriving DecidableEq, Repr

/-- Code with the map to its sources, where it has one. -/
structure Fragment where
  code : String
  map : Option SourceMap := none
deriving DecidableEq, Repr

/-- A source name under a root: the root, a slash and the name, unless the name is absolute. -/
def underRoot (root name : String) : String :=
  let cs := name.toList
  if (stripPrefix? ['/'] cs).isSome || (stripPrefix? "http:".toList cs).isSome ||
      (stripPrefix? "https:".toList cs).isSome then name
  else
    let r := root.toList
    let r := if r.getLast? = some '/' then r.dropLast else r
    String.ofList (r ++ '/' :: cs)

namespace SourceMap

/-- The names of the sources, under the source root where there is one. -/
def sourceNames (map : SourceMap) : List String :=
  match map.sourceRoot with
  | some root => if root.isEmpty then map.sources else map.sources.map (underRoot root)
  | none => map.sources

def contentAt (map : SourceMap) (i : Nat) : Option String := (map.contents[i]?).join

/-- The embedded content of the first source with a name. -/
def contentOf (map : SourceMap) (source : String) : Option String :=
  let names := map.sourceNames
  if names.contains source then map.contentAt (names.idxOf source) else none

/-- The mapping that answers for a position: the first one at the position, or the last one
before it. -/
def nearest (mappings : List Mapping) (p : Position) : Option Mapping :=
  match mappings.find? (fun m => decide (m.generated = p)) with
  | some m => some m
  | none => (mappings.filter (fun m => decide (m.generated < p))).getLast?

/-- What a mapping says about a position on its line. -/
def originAt (map : SourceMap) (m : Mapping) (p : Position) : Option Origin := do
  let source ← map.sourceNames[← m.source]?
  let offset := if m.range then p.column - m.generated.column else 0
  pure {
    source
    position := ⟨m.original.line, m.original.column + offset⟩
    name := m.name.bind fun i => map.names[i]? }

/-- The original position of a generated position: that of the nearest mapping at or before it on
the same line, where this mapping has a source. -/
def original? (map : SourceMap) (p : Position) : Option Origin := do
  let m ← nearest map.mappings p
  if m.generated.line = p.line then map.originAt m p else none

def entry (map : SourceMap) (m : Mapping) : MapEntry where
  generated := m.generated
  original := m.original
  source := m.source.bind fun i => map.sourceNames[i]?
  name := m.name.bind fun i => map.names[i]?

def entries (map : SourceMap) : List MapEntry := map.mappings.map map.entry

/-- Mappings in the order of their generated positions, ties as given. -/
def sortMappings (ms : List Mapping) : List Mapping :=
  stableSort (fun a b => decide (a.generated ≤ b.generated)) ms

/-- The map with the given mappings.  Sources are listed in the order of first use, followed by
those that only come with a content; names likewise.  Of two contents for a source the last
counts. -/
def ofEntries (file root : Option String) (entries : List MapEntry)
    (contents : List (String × String)) : SourceMap :=
  let sources := firstUses (entries.filterMap (·.source) ++ contents.map (·.1))
  let names := firstUses (entries.filterMap (·.name))
  { file
    sourceRoot := root
    sources
    contents := sources.map fun s => (contents.reverse.find? (·.1 == s)).map (·.2)
    names
    mappings := sortMappings (entries.map fun e => {
      generated := e.generated
      original := e.original
      source := e.source.map sources.idxOf
      name := e.name.map names.idxOf
      range := false })
    ignored := []
    debugId := none }

end SourceMap

end SingleFile
