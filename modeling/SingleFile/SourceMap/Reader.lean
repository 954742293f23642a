import SingleFile.Json.Reader
import SingleFile.Json.Record
import SingleFile.Json.Writer
import SingleFile.SourceMap.Basic
import SingleFile.SourceMap.Vlq

/-!
# Reading source maps

`SourceMap.parse` reads a map from its JSON text.  A header line that guards against execution may
stand in front.  All positions and indices are 32-bit words, and sums of differences wrap.

The fields, the order in which faults are found and the sections that are refused are those of the
`sourcemap` library.  The fields in which bundlers keep data of their own count as unknown here, also
those by which the library tells a map of another kind, and a text that is no JSON is one fault
without a place.
-/

namespace SingleFile

/-- Why a source map does not decode. -/
inductive MapError where
  | badJson
  | vlq (failure : Vlq.Failure)
  | badSegmentSize (n : Nat)
  | badSource (n : Nat)
  | badName (n : Nat)
  | incompatible
  | invalidBase64 (c : Char)
  | expectedNewline
deriving DecidableEq, Repr

/-- What is said of a map that does not decode. -/
def MapError.message (e : MapError) : String :=
  "invalid source map: " ++ match e with
  | .badJson => "bad json: <detail>"
  | .vlq .leftover => "leftover cur/shift in vlq decode"
  | .vlq .overflow => "vlq decode caused an overflow"
  | .vlq .noValues => "vlq decode did not produce any values"
  | .badSegmentSize n => s!"got {n} segments, expected 4 or 5"
  | .badSource n => s!"bad reference to source #{n}"
  | .badName n => s!"bad reference to name #{n}"
  | .incompatible => "encountered incompatible sourcemap format"
  | .invalidBase64 c => s!"invalid base64 character: {c}"
  | .expectedNewline => "expected newline"

namespace SourceMap

/-- The values that run across the segments of a map. -/
structure Running where
  source : Nat := 0
  line : Nat := 0
  column : Nat := 0
  name : Nat := 0

def wordAdd (n : Nat) (d : Int) : Nat := (((n : Int) + d) % 2 ^ 32).toNat

def readSegment (sourceCount nameCount line column : Nat) (range : Bool) (run : Running)
    (segment : List Char) : Except MapError (Mapping × Running) := do
  let numbers ← (Vlq.decode segment).mapError .vlq
  match numbers with
  | [c] => pure (⟨⟨line, wordAdd column c⟩, ⟨run.line, run.column⟩, none, none, range⟩, run)
  | c :: s :: l :: k :: rest =>
    match rest with
    | _ :: _ :: _ => throw (.badSegmentSize numbers.length)
    | _ =>
      let source := wordAdd run.source s
      if sourceCount ≤ source then throw (.badSource source)
      let run := { run with source, line := wordAdd run.line l, column := wordAdd run.column k }
      let at_ : Mapping := ⟨⟨line, wordAdd column c⟩, ⟨run.line, run.column⟩, some source, none, range⟩
      match rest with
      | [n] =>
        let name := wordAdd run.name n
        if nameCount ≤ name then throw (.badName name)
        pure ({ at_ with name := some name }, { run with name })
      | _ => pure (at_, run)
  | _ => throw (.badSegmentSize numbers.length)

/-- Reads the segments of a line; `index` counts all of them, empty ones too. -/
def readSegments (sourceCount nameCount line : Nat) (ranges : List Bool) :
    (index column : Nat) → Running → List (List Char) → Except MapError (List Mapping × Running)
  | _, _, run, [] => pure ([], run)
  | index, column, run, segment :: rest =>
    if segment.isEmpty then
      readSegments sourceCount nameCount line ranges (index + 1) column run rest
    else do
      let (m, run) ← readSegment sourceCount nameCount line column (ranges.getD index false) run segment
      let (ms, run) ←
        readSegments sourceCount nameCount line ranges (index + 1) m.generated.column run rest
      pure (m :: ms, run)

/-- The six bits of each digit of a bit field, lowest first. -/
def readRanges : List Char → Except MapError (List Bool)
  | [] => pure []
  | c :: rest =>
    match Vlq.digitValue? c with
    | none =>
      -- the first byte of the character, read as a character
      throw (.invalidBase64 (if c.toNat < 0x80 then c else Char.ofNat ((String.ofList [c]).toUTF8.data.getD 0 0).toNat))
    | some n => do pure ((List.range 6).map (fun i => n / 2 ^ i % 2 == 1) ++ (← readRanges rest))

def readLines (sourceCount nameCount : Nat) : Nat → Running → List (List Char) →
    List (List Char) → Except MapError (List Mapping)
  | _, _, [], _ => pure []
  | line, run, text :: rest, fields =>
    if text.isEmpty then readLines sourceCount nameCount (line + 1) run rest fields.tail
    else do
      let ranges ← readRanges (fields.headD [])
      let (ms, run) ←
        readSegments sourceCount nameCount line ranges 0 0 run (splitAt ',' text)
      pure (ms ++ (← readLines sourceCount nameCount (line + 1) run rest fields.tail))

def isGuard (c : Char) : Bool := c = ')' || c = ']' || c = '}' || c = '\''

def afterGuard : List Char → Except MapError (List Char)
  | [] => pure []
  | '\n' :: rest => pure rest
  | '\r' :: '\n' :: rest => pure rest
  | '\r' :: _ => throw .expectedNewline
  | _ :: rest => afterGuard rest

def stripGuard (cs : List Char) : Except MapError (List Char) :=
  match cs with
  | c :: _ => if isGuard c then afterGuard cs else pure cs
  | [] => pure []

/-- The debug identifier in groups of 8, 4, 4, 4 and 12 hexadecimal digits. -/
def readDebugId (s : String) : Option String :=
  let cs := s.toList.filter (· ≠ '-')
  if cs.length = 32 && cs.all (fun c => (Json.hexValue c).isSome) then
    let cs := cs.map lowerAscii
    some (String.ofList (cs.take 8 ++ '-' :: (cs.drop 8).take 4 ++ '-' :: (cs.drop 12).take 4 ++
      '-' :: (cs.drop 16).take 4 ++ '-' :: cs.drop 20))
  else none

def fieldNames : List String :=
  ["version", "file", "sources", "sourceRoot", "sourcesContent", "sections", "names",
   "rangeMappings", "mappings", "ignoreList", "debug_id", "debugId"]

/-- A map as it is written, before its mappings are decoded. -/
structure Document where
  file : Option String
  sources : List String
  sourceRoot : Option String
  contents : List (Option String)
  sections : Option (List Json)
  names : List String
  ranges : String
  mappings : String
  ignored : List Nat
  debugId : Option String

/-- A name; numbers count as their text and other values as the empty name. -/
def readName : Json → String
  | .string s => s
  | .number n => String.ofList n.chars
  | _ => ""

/-- Reads the fields of a map, where `readSections` reads the maps of its sections. -/
def Document.read (readSections : Json → Option (List Json)) (v : Json) : Option Document := do
  let fields ← Json.objectFields fieldNames v
  let get {α : Type} (name : String) (read : Json → Option α) : Option (Option α) :=
    Json.fieldOr fields name none (Json.optional read)
  let _ ← get "version" Json.asWord
  let file ← get "file" (fun v => some (match v with | .string s => s | _ => "<invalid>"))
  let sources ← get "sources" (Json.asList (Json.optional Json.asString))
  let sourceRoot ← get "sourceRoot" Json.asString
  let contents ← get "sourcesContent" (Json.asList (Json.optional Json.asString))
  let sections ← get "sections" readSections
  let names ← get "names" (Json.asList (fun v => some (readName v)))
  let ranges ← get "rangeMappings" Json.asString
  let mappings ← get "mappings" Json.asString
  let ignored ← get "ignoreList" (Json.asList Json.asWord)
  let oldId ← get "debug_id" (fun v => Json.asString v >>= readDebugId)
  let newId ← get "debugId" (fun v => Json.asString v >>= readDebugId)
  pure {
    file, sourceRoot, sections
    sources := (sources.getD []).map (·.getD "")
    contents := contents.getD []
    names := names.getD []
    ranges := ranges.getD ""
    mappings := mappings.getD ""
    ignored := ignored.getD []
    debugId := newId <|> oldId }

/-- The map of a section, which has an offset and may have an address. -/
def sectionMap (v : Json) : Option (List Json) := do
  let fields ← Json.recordFields ["offset", "url", "map"] v
  let _ ← Json.field fields "offset" fun v => do
    let fields ← Json.recordFields ["line", "column"] v
    let _ ← Json.field fields "line" Json.asWord
    Json.field fields "column" Json.asWord
  let _ ← Json.fieldOr fields "url" none (Json.optional Json.asString)
  pure (match Json.lookup "map" fields with
    | none | some .null => []
    | some v => [v])

/-- Reads the fields of a map and of the maps in its sections, nested less than `fuel` deep. -/
def Document.ofJson : Nat → Json → Option Document
  | 0, _ => none
  | fuel + 1, v =>
    Document.read (fun v => do
      let maps := (← Json.asList sectionMap v).flatten
      let _ ← maps.mapM (Document.ofJson fuel)
      pure maps) v

def ofDocument (d : Document) : Except MapError SourceMap := do
  let mappings ← readLines d.sources.length d.names.length 0 {} (splitAt ';' d.mappings.toList)
    (splitAt ';' d.ranges.toList)
  pure {
    file := d.file, sourceRoot := d.sourceRoot, sources := d.sources, contents := d.contents
    names := d.names, mappings := sortMappings mappings
    ignored := firstUses (stableSort (fun a b => decide (a ≤ b)) d.ignored), debugId := d.debugId }

/-- Decodes a map and, where it has sections, those of its sections instead. -/
def decodeAll : Nat → Json → Except MapError Unit
  | 0, _ => throw .badJson
  | fuel + 1, v =>
    match Document.ofJson (fuel + 1) v with
    | none => throw .badJson
    | some d =>
      match d.sections with
      | some maps => maps.forM (decodeAll fuel)
      | none => (ofDocument d).map fun _ => ()

/-- Reads a map from JSON.  Maps with sections are refused, after what is wrong inside them. -/
def ofJson (v : Json) : Except MapError SourceMap :=
  match Document.ofJson Json.depthLimit v with
  | none => throw .badJson
  | some d =>
    if d.sections.isSome then do
      decodeAll Json.depthLimit v
      throw .incompatible
    else ofDocument d

def parse (text : String) : Except MapError SourceMap := do
  match Json.parseChars (← stripGuard text.toList) with
  | some v => ofJson v
  | none => throw .badJson

end SourceMap

end SingleFile
