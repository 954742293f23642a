import SingleFile.SourceMap.Basic

/-!
# Composing and retargeting maps

`SourceMap.merge` composes the map of a first step with that of a second one, which was applied to
the output of the first.  `SourceMap.retarget` points a map with one source at another file.
-/

namespace SingleFile.SourceMap

/-- A mapping of the second map, traced through the first: the source, line and name come from the
first map, the column from the second. -/
def trace (old : SourceMap) (e : MapEntry) : Option MapEntry := do
  let _ ← e.source
  let origin ← old.original? e.original
  pure {
    generated := e.generated
    original := ⟨origin.position.line, e.original.column⟩
    source := some origin.source
    name := origin.name }

/-- Composes two maps.  Mappings that do not trace back to a source are dropped; the file, the
source root and the contents are those of the first map. -/
def merge (old new : SourceMap) : SourceMap :=
  let entries := new.entries.filterMap old.trace
  let used := firstUses (entries.filterMap (·.source))
  ofEntries old.file old.sourceRoot entries
    (used.filterMap fun s => (old.contentOf s).map (s, ·))

/-- Composes two maps of which either may be missing: a step without a map moves nothing. -/
def merge? : Option SourceMap → Option SourceMap → Option SourceMap
  | none, new => new
  | old, none => old
  | some old, some new => some (merge old new)

/-- Replaces the only source of a map by a file with the given content.  A map with more sources
or none is kept. -/
def retarget (map : SourceMap) (path content : String) : SourceMap :=
  if map.sources.length ≠ 1 then map
  else
    ofEntries map.file none
      (map.entries.map fun e => { e with source := e.source.map fun _ => path })
      [(path, content)]

end SingleFile.SourceMap
