import SingleFile.Component.Block
import SingleFile.Component.Markup
import SingleFile.Text.LineIndex

/-!
# Splitting a component file into blocks

`Component.parse` reads every text: what is no block is skipped, and what is wrong with a block is
recorded among the problems.  Of the template and of each kind of script the first one counts.
Scripts get a map from each of their characters back to the file.
-/

namespace SingleFile

/-- A line that gets no mappings: blank, or blank after a leading `//`. -/
def isBareLine (line : List Char) : Bool :=
  allBlank ((stripPrefix? ['/', '/'] line).getD line)

/-- The columns of the characters of a line that are not white space. -/
def inkColumns : Nat → List Char → List Nat
  | _, [] => []
  | column, c :: r =>
    let rest := inkColumns (column + Char.units c) r
    if isBlank c then rest else column :: rest

/-- The map of a content that starts on line `start` of a file: each character that is not white
space has its own mapping to the same column, on a line `start` further down. -/
def blockMap (filename source : String) (start : Nat) (content : List Char) : SourceMap :=
  let lines := splitAt '\n' content
  SourceMap.ofEntries (some filename) none
    (lines.zipIdx.flatMap fun (line, row) =>
      if isBareLine line then []
      else (inkColumns 0 line).map fun column =>
        ⟨⟨row, column⟩, ⟨start + row, column⟩, some filename, none⟩)
    [(filename, source)]

namespace Attribute

/-- The value of the first attribute with a name, in any ASCII case. -/
def value? (name : String) (attributes : List Attribute) : Option String :=
  (attributes.find? fun a => equalFold a.name.toList name.toList).bind (·.value)

def has (name : String) (attributes : List Attribute) : Bool :=
  attributes.any fun a => equalFold a.name.toList name.toList

end Attribute

namespace Component

def readAttributeValue (cursor : Cursor) : List Char × Cursor :=
  let cursor := cursor.skipBlank
  match cursor.quoted? with
  | some (value, _, cursor) => (value, cursor)
  | none => cursor.unquoted

/-- Reads attributes up to the end of the start tag; other characters are skipped. -/
def readAttributes : Nat → Cursor → List Attribute × Cursor
  | 0, cursor => ([], cursor)
  | fuel + 1, cursor =>
    let cursor := cursor.skipBlank
    if cursor.startsWith ">" || cursor.startsWith "/>" || cursor.atEnd then ([], cursor)
    else
      match cursor.attributeName? with
      | none => readAttributes fuel cursor.next
      | some (name, cursor) =>
        let cursor := cursor.skipBlank
        match cursor.consume? "=" with
        | some cursor =>
          let (value, cursor) := readAttributeValue cursor
          let (rest, cursor) := readAttributes fuel cursor
          (⟨String.ofList name, some (String.ofList value)⟩ :: rest, cursor)
        | none =>
          let (rest, cursor) := readAttributes fuel cursor
          (⟨String.ofList name, none⟩ :: rest, cursor)

/-- Moves over the end of a start tag, and says whether the tag closes itself. -/
def readTagEnd (cursor : Cursor) : Bool × Cursor :=
  let cursor := cursor.skipBlank
  match cursor.consume? "/>" with
  | some cursor => (true, cursor)
  | none => (false, cursor.consume ">")

/-- Moves over the closing tag of a block, if it comes next. -/
def readClosingTag (cursor : Cursor) (tag : String) : Cursor :=
  match cursor.consumeFold? ("</" ++ tag) with
  | some cursor => (cursor.takeUntil ">").2.consume ">"
  | none => cursor

def addBlock (c : Component) (lines : LineIndex) (tag : String) (block : Block) : Component :=
  let problem (kind : Problem.Kind) (name : String) : Component :=
    { c with problems := c.problems ++ [⟨kind, name, block.span⟩] }
  if tag = "template" then
    if c.template.isSome then problem .duplicate "template"
    else
      { c with template := some { block with
          functional := Attribute.has "functional" block.attributes } }
  else if tag = "script" then
    let map := blockMap c.filename c.source (lines.position block.contentSpan.start).line
      block.content.toList
    let script : ScriptBlock := { block with
      map := some map, setup := Attribute.has "setup" block.attributes }
    if script.setup then
      if c.setupScript.isSome then problem .duplicate "script setup"
      else { c with setupScript := some script }
    else if c.script.isSome then problem .duplicate "script"
    else { c with script := some script }
  else if tag = "style" then
    let name := ((Attribute.value? "module" block.attributes).filter (!·.isEmpty)).getD "$style"
    { c with styles := c.styles ++ [{ block with
        isScoped := Attribute.has "scoped" block.attributes
        moduleName := if Attribute.has "module" block.attributes then some name else none }] }
  else { c with customBlocks := c.customBlocks ++ [{ block with kind := tag }] }

def readBlock (c : Component) (lines : LineIndex) (cursor : Cursor) : Component × Cursor :=
  let start := cursor.offset
  let cursor := cursor.next.skipBlank
  match cursor.tagName? with
  | none => (c, cursor)
  | some (name, cursor) =>
    let name := name.map lowerAscii
    let tag := String.ofList name
    let (attributes, cursor) := readAttributes (cursor.rest.length + 1) cursor
    let (closesItself, cursor) := readTagEnd cursor
    let contentStart := cursor.offset
    let (content, closed, cursor) :=
      if closesItself then ([], true, cursor) else cursor.content name
    let contentSpan := cursor.spanFrom contentStart
    let c := if closed then c
      else { c with problems := c.problems ++ [⟨.unclosed, tag, cursor.spanFrom start⟩] }
    let cursor := if closesItself then cursor else readClosingTag cursor tag
    let span := cursor.spanFrom start
    let src := (Attribute.value? "src" attributes).filter (!·.isEmpty)
    let c := if src.isSome && !allBlank content then
        { c with problems := c.problems ++ [⟨.sourceWithContent, tag, span⟩] }
      else c
    let block : Block := {
      span, contentSpan, attributes, src
      content := String.ofList content
      lang := Attribute.value? "lang" attributes
      map := none }
    (c.addBlock lines tag block, cursor)

/-- Reads blocks up to the end of the text, skipping what stands between them. -/
def readBlocks (lines : LineIndex) : Nat → Component → Cursor → Component
  | 0, c, _ => c
  | fuel + 1, c, cursor =>
    let cursor := cursor.skipBlank
    if cursor.atEnd then c
    else
      match cursor.comment? with
      | some (_, cursor) => readBlocks lines fuel c cursor
      | none =>
        if cursor.startsWith "<" && !cursor.startsWith "</" then
          let (c, cursor) := c.readBlock lines cursor
          readBlocks lines fuel c cursor
        else readBlocks lines fuel c cursor.next

def parse (source filename : String) : Component :=
  readBlocks (.ofText source) (source.length + 1) { filename, source } (.ofText source)

end Component

end SingleFile
