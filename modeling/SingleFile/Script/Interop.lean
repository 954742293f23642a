import SingleFile.Script.Module
import SingleFile.SourceMap.Basic
import SingleFile.Text.LineIndex

/-!
# Rewriting module syntax

A script is compiled by rewriting the declarations by which it imports and exports; all other text
is copied as it stands.  `edits` says which ranges are replaced by what, `cut` divides the script
into the segments that are copied and those that are replaced, and `layOut` puts the segments one
after the other, with a mapping for every word start of copied text and one for every replacement.
A replacement keeps the line breaks of the text it stands for.
-/

namespace SingleFile.Script

/-- The module syntax of the compiled code. -/
inductive ModuleFormat where
  | commonJS
  | ecmaScript
deriving DecidableEq, Repr

/-- A range to replace, and what is said at the end of the code because of it. -/
structure Edit where
  range : Span
  text : String
  footer : List String := []
deriving Repr

inductive Segment where
  | copied (text : List Char)
  | replaced (old new : List Char)
deriving Repr

/-- The local name of a default export that has none. -/
def componentName : String := "_sfc_main"

/-- The start of compiled code in the older format. -/
def header : String :=
  "\"use strict\";\nObject.defineProperty(exports, \"__esModule\", \x7b value: true \x7d);\n"

/-! ## Edits -/

section Edits

variable (script : List Char)

def textAt (s : Span) : String := String.ofList ((s.text? script).getD [])

def importName (n : Nat) : String := "_import" ++ toString n

/-- A member of an object; names that are strings go into brackets. -/
def memberOf (object name : String) : String :=
  match name.toList with
  | '"' :: _ | '\'' :: _ => object ++ "[" ++ name ++ "]"
  | _ => object ++ "." ++ name

def importText (module source : String) (bindings : List ImportBinding) : String :=
  if bindings.isEmpty then "require(" ++ source ++ ");"
  else
    let whole := bindings.map fun
      | .default n =>
        " var " ++ textAt script n.span ++ " = " ++ module ++ " && " ++ module ++
          ".__esModule ? " ++ module ++ ".default : " ++ module ++ ";"
      | .whole n => " var " ++ textAt script n.span ++ " = " ++ module ++ ";"
      | .named _ _ => ""
    let named := bindings.filterMap fun
      | .named (some i) n => some (textAt script i ++ ": " ++ textAt script n.span)
      | .named none n => some (textAt script n.span)
      | _ => none
    let tail := if named.isEmpty then ""
      else " var \x7b " ++ ", ".intercalate named ++ " \x7d = " ++ module ++ ";"
    "var " ++ module ++ " = require(" ++ source ++ ");" ++ String.join whole ++ tail

/-- The assignment of an export to `exports`; `value` makes the value of a name, or of the whole
module. -/
def exportAssignment (value : Option String → String) (b : ExportBinding) : String :=
  match b with
  | .named inner outer =>
    let local_ := textAt script inner
    memberOf "exports" (textAt script (outer.getD inner)) ++ " = " ++ value (some local_) ++ ";"
  | .whole outer => memberOf "exports" (textAt script outer) ++ " = " ++ value none ++ ";"

def exportAllText (module source : String) : String :=
  "var " ++ module ++ " = require(" ++ source ++ "); Object.keys(" ++ module ++
    ").forEach(function (k) \x7b if (k !== 'default' && !(k in exports)) exports[k] = " ++ module ++
    "[k]; \x7d);"

/-- The footer that exports a local name as the default. -/
def defaultFooter (format : ModuleFormat) (name : String) : String :=
  match format with
  | .commonJS => "exports.default = " ++ name ++ ";"
  | .ecmaScript => "export \x7b " ++ name ++ " as default \x7d"

def defaultValueEdit (format : ModuleFormat) (range : Span) : Edit :=
  match format with
  | .commonJS => { range, text := "exports.default = " }
  | .ecmaScript =>
    { range, text := "const " ++ componentName ++ " = "
      footer := [defaultFooter .ecmaScript componentName] }

/-- Whether an item takes a module object of its own in the older format. -/
def Item.takesModule : Item → Bool
  | .importing _ bindings _ => !bindings.isEmpty
  | .exportNamed _ _ source => source.isSome
  | .exportAll _ _ => true
  | _ => false

/-- The edit for an item; `n` is the number of the next module object. -/
def editOf (format : ModuleFormat) (n : Nat) : Item → Option Edit
  | .statement _ _ => none
  | .exportValue span start => some (defaultValueEdit format ⟨span.start, start⟩)
  | .exportDefault span start none => some (defaultValueEdit format ⟨span.start, start⟩)
  | .exportDefault span start (some name) =>
    some {
      range := ⟨span.start, start⟩, text := ""
      footer := [defaultFooter format (textAt script name.span)] }
  | .importing span bindings source =>
    match format with
    | .ecmaScript => none
    | .commonJS =>
      some { range := span, text := importText script (importName n) (textAt script source) bindings }
  | .exportDeclaration span start names =>
    match format with
    | .ecmaScript => none
    | .commonJS =>
      some {
        range := ⟨span.start, start⟩, text := ""
        footer := names.map fun name =>
          let text := textAt script name.span
          "exports." ++ text ++ " = " ++ text ++ ";" }
  | .exportNamed span bindings source =>
    match format with
    | .ecmaScript => none
    | .commonJS =>
      match source with
      | none =>
        some {
          range := span, text := ""
          footer := bindings.map (exportAssignment script fun name => name.getD "*") }
      | some source =>
        let module := importName n
        let value := fun
          | some name => memberOf module name
          | none => module
        some {
          range := span
          text := "var " ++ module ++ " = require(" ++ textAt script source ++ ");" ++
            String.join (bindings.map fun b => " " ++ exportAssignment script value b) }
  | .exportAll span source =>
    match format with
    | .ecmaScript => none
    | .commonJS =>
      some { range := span, text := exportAllText (importName n) (textAt script source) }

/-- The edits for the items of a module, with module objects numbered from `n`. -/
def edits (format : ModuleFormat) : Nat → List Item → List Edit
  | _, [] => []
  | n, item :: items =>
    let next := if item.takesModule then n + 1 else n
    (editOf script format n item).toList ++ edits format next items

end Edits

/-! ## Segments -/

/-- Divides a script from `offset` on into segments; nothing where the edits are out of order or
reach outside the script. -/
def cut : Nat → List Edit → List Char → Option (List Segment)
  | _, [], rest => some [.copied rest]
  | offset, e :: es, rest =>
    if offset ≤ e.range.start ∧ e.range.start ≤ e.range.stop then do
      let (before, rest) ← splitBytes (e.range.start - offset) rest
      let (old, rest) ← splitBytes (e.range.stop - e.range.start) rest
      let new := e.text.toList ++ old.filter (· = '\n')
      let more ← cut e.range.stop es rest
      return .copied before :: .replaced old new :: more
    else none

def Segment.source : Segment → List Char
  | .copied text => text
  | .replaced old _ => old

def Segment.output : Segment → List Char
  | .copied text => text
  | .replaced _ new => new

/-! ## Layout -/

def entryAt (file : String) (generated original : Position) : MapEntry :=
  ⟨generated, original, some file, none⟩

/-- The mappings of copied text: one for each character that is not blank and comes first or after
a blank one. -/
def copiedEntries (file : String) : Bool → Position → Position → List Char → List MapEntry
  | _, _, _, [] => []
  | afterBlank, generated, original, c :: r =>
    let more := copiedEntries file (isBlank c) (generated.step c) (original.step c) r
    if afterBlank && !isBlank c then entryAt file generated original :: more else more

def segmentEntries (file : String) (generated original : Position) : Segment → List MapEntry
  | .copied text => copiedEntries file true generated original text
  | .replaced _ new =>
    match new with
    | c :: _ => if isBlank c then [] else [entryAt file generated original]
    | [] => []

/-- The mappings of segments laid end to end. -/
def layOut (file : String) : Position → Position → List Segment → List MapEntry
  | _, _, [] => []
  | generated, original, s :: more =>
    segmentEntries file generated original s ++
      layOut file (generated.after s.output) (original.after s.source) more

/-! ## Compiling -/

/-- Where a script is at fault: line and byte column, both from one. -/
structure Fault where
  line : Nat
  column : Nat
deriving DecidableEq, Repr

def Fault.at (source : String) (offset : Nat) : Fault :=
  let p := (LineIndex.ofText source).position offset
  ⟨p.line + 1, p.column + 1⟩

def Fault.message (f : Fault) : String :=
  "<syntax error> (" ++ toString f.line ++ ":" ++ toString f.column ++ ")"

/-- The lines at the end of compiled code, which start on a line of their own. -/
def footerText (body : List Char) (lines : List String) : List Char :=
  if lines.isEmpty then []
  else
    let gap := match body.getLast? with
      | none => []
      | some c => if c = '\n' then [] else ['\n']
    gap ++ (lines.map fun l => l.toList ++ ['\n']).flatten

/-- The code made of segments, with its mappings. -/
def assemble (format : ModuleFormat) (file source : String) (segments : List Segment)
    (footer : List String) : Fragment :=
  let front := match format with
    | .commonJS => header.toList
    | .ecmaScript => []
  let body := front ++ (segments.map Segment.output).flatten
  let entries := layOut file (Position.origin.after front) .origin segments
  { code := String.ofList (body ++ footerText body footer)
    map := some (SourceMap.ofEntries none none entries [(file, source)]) }

/-- Compiles a script: rewrites its imports and exports. -/
def compile (format : ModuleFormat) (file source : String) : Except Fault Fragment :=
  match parse source with
  | .error offset => .error (.at source offset)
  | .ok items =>
    let cs := source.toList
    let changes := edits cs format 1 items
    match cut 0 changes cs with
    | none => .error (.at source cs.length)
    | some segments =>
      .ok (assemble format file source segments (changes.map (·.footer)).flatten)

end SingleFile.Script
