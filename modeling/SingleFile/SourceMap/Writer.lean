import SingleFile.Json.Writer
import SingleFile.SourceMap.Basic
import SingleFile.SourceMap.Vlq

/-!
# Writing source maps

`SourceMap.toJson` writes a map in the version 3 format.  A mapping that says the same as the one
before it on its line is left out.
-/

namespace SingleFile.SourceMap

structure Written where
  generated : Position := .origin
  source : Nat := 0
  original : Position := .origin
  name : Nat := 0

def diff (a b : Nat) : List Char := Vlq.encode ((a : Int) - b)

def segment (last : Written) (m : Mapping) : List Char × Written :=
  let column := diff m.generated.column last.generated.column
  match m.source with
  | none => (column, { last with generated := m.generated })
  | some source =>
    let head := column ++ diff source last.source ++ diff m.original.line last.original.line ++
      diff m.original.column last.original.column
    let last := { last with generated := m.generated, source, original := m.original }
    match m.name with
    | none => (head, last)
    | some name => (head ++ diff name last.name, { last with name })

/-- Writes mappings after `previous`; the first of all has none. -/
def segments (map : SourceMap) (last : Written) : Option Mapping → List Mapping → List Char
  | _, [] => []
  | previous, m :: rest =>
    let lines := m.generated.line - last.generated.line
    if lines = 0 then
      match previous with
      | none =>
        let (text, last) := segment last m
        text ++ segments map last (some m) rest
      | some p =>
        if map.entry m = map.entry p then segments map last (some m) rest
        else
          let (text, last) := segment last m
          ',' :: text ++ segments map last (some m) rest
    else
      let (text, last) := segment { last with generated := ⟨m.generated.line, 0⟩ } m
      List.replicate lines ';' ++ text ++ segments map last (some m) rest

/-- The digits of a bit field, six bits to a digit. -/
def rangeDigits : Nat → Nat → List Char
  | 0, _ => []
  | fuel + 1, bits =>
    if bits < 64 then [Vlq.digit bits] else Vlq.digit (bits % 64) :: rangeDigits fuel (bits / 64)

def lineRanges (ms : List Mapping) : List Char :=
  let bits := (ms.zipIdx.map fun (m, i) => if m.range then 2 ^ i else 0).foldl (· + ·) 0
  if bits = 0 then [] else rangeDigits (ms.length + 1) bits

/-- The bit fields of the lines up to the last one with a mapping. -/
def ranges (ms : List Mapping) : List Char :=
  let last := (ms.map (·.generated.line)).foldl max 0
  List.intercalate [';'] ((List.range (last + 1)).map fun line =>
    lineRanges (ms.filter (·.generated.line == line)))

def toDocument (map : SourceMap) : Json :=
  let contents := (List.range map.sources.length).map map.contentAt
  .object <|
    [("version", .number (.natural 3))] ++
    (map.file.map fun s => ("file", Json.string s)).toList ++
    [("sources", .array (map.sources.map .string))] ++
    (map.sourceRoot.map fun s => ("sourceRoot", Json.string s)).toList ++
    (if contents.any (·.isSome) then
      [("sourcesContent", .array (contents.map fun
        | some s => .string s
        | none => .null))]
     else []) ++
    [("names", .array (map.names.map .string))] ++
    (if map.mappings.any (·.range) then
      [("rangeMappings", .string (String.ofList (ranges map.mappings)))]
     else []) ++
    [("mappings", .string (String.ofList (segments map {} none map.mappings)))] ++
    (if map.ignored.isEmpty then []
     else [("ignoreList", .array (map.ignored.map fun n => .number (.natural n)))]) ++
    (map.debugId.map fun s => ("debugId", Json.string s)).toList

def toJson (map : SourceMap) : String := map.toDocument.compact

end SingleFile.SourceMap
