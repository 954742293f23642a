import SingleFile.Log
import SingleFile.SourceMap.Draft
import SingleFile.SourceMap.Writer

/-!
# Assembling a module

The processed parts of a component are laid out one below the other: the script or an empty
component, an alias for its options, the render functions, the styles and the custom blocks.
`Assembly.assemble` gives the code with its map.
-/

namespace SingleFile

/-- The name of the component's options in the module. -/
def optionsName : String := "__options__"

/-- The comment from which on a compiler describes the map of its code. -/
def mapComment : List Char := "//# sourceMappingURL".toList

/-- Drops the comment that describes the map of some code, and all that follows it. -/
def withoutMapComment (code : String) : String :=
  match splitFirst? mapComment code.toList with
  | some (front, _) => String.ofList front
  | none => code

/-- A style that has been processed: the name it is registered under, and its value. -/
structure StyleResult where
  name : String
  code : String
deriving DecidableEq, Repr

/-- The parts of a module. -/
structure Assembly where
  filename : String
  esm : Bool
  isFunctional : Bool
  script : Option Fragment
  template : Option Fragment
  styles : List StyleResult
  custom : Option String
deriving Repr

/-- A module with its map. -/
structure Output where
  code : String
  map : SourceMap
deriving Repr

namespace Assembly

def placeholder (esm : Bool) : String :=
  if esm then "const _comp = \x7b\x7d \nexport \x7b _comp as default \x7d"
  else
    "Object.defineProperty(exports, \"__esModule\", \x7b\n  value: true\n\x7d);\n" ++
    "module.exports.default = \x7b\x7d;\n"

/-- The text between the first `export { ` and the last ` as default }` after it on its line. -/
def defaultName? : List Char → Option (List Char)
  | [] => none
  | c :: r =>
    let here := do
      let rest ← stripPrefix? "export \x7b ".toList (c :: r)
      let (name, _) ← splitLast? " as default \x7d".toList (rest.takeWhile (· ≠ '\n'))
      return name
    here.orElse fun _ => defaultName? r

/-- The line that binds the options of the component, and what is wrong with it. -/
def optionsAlias (esm : Bool) (code : List Char) : String × List Event :=
  if esm then
    match defaultName? code with
    | some name =>
      ("const " ++ optionsName ++ " = " ++ String.ofList name ++ ".options\n", [])
    | none =>
      ("const " ++ optionsName ++ " = \x7b\x7d\n",
        [⟨.error, "Could not parse component name from template!", []⟩])
  else
    ("var " ++ optionsName ++ " = typeof exports.default === 'function' ? " ++
      "exports.default.options : exports.default\n", [])

/-- The line of a render function that coverage leaves out, and the comment that says so. -/
def renderHelper : List Char := "var _c = _vm._self._c || _h".toList

def coverageComment : List Char := "/* istanbul ignore next */\n".toList

def renderWiring (isFunctional : Bool) : String :=
  "\n" ++ optionsName ++ ".render = render\n" ++
  optionsName ++ ".staticRenderFns = staticRenderFns\n" ++
  (if isFunctional then
    optionsName ++ ".functional = true\n" ++ optionsName ++ "._compiled = true\n"
  else "")

def registration (style : StyleResult) : String :=
  let property := "this['" ++ style.name ++ "']"
  "if(!" ++ property ++ ") \x7b\n  " ++ property ++ " = \x7b\x7d;\n\x7d\n" ++
  property ++ " = Object.assign(\n" ++ property ++ ", " ++ style.code ++ ");\n"

/-- The statement that registers the styles before an instance is created or rendered. -/
def styleBlock (isFunctional : Bool) (styles : List StyleResult) : String :=
  let styleFn := "  var styleFn = function () \x7b " ++ String.join (styles.map registration) ++ " \x7d\n"
  if isFunctional then
    ";(function() \x7b\n  var originalRender = " ++ optionsName ++ ".render\n" ++ styleFn ++
    "  " ++ optionsName ++ ".render = function renderWithStyleInjection (h, context) \x7b\n" ++
    "    styleFn.call(context)\n    return originalRender(h, context)\n  \x7d\n\x7d)()\n"
  else
    ";(function() \x7b\n  var beforeCreate = " ++ optionsName ++ ".beforeCreate\n" ++ styleFn ++
    "  " ++ optionsName ++
    ".beforeCreate = beforeCreate ? [].concat(beforeCreate, styleFn) : [styleFn]\n\x7d)()\n"

/-- Starts a line, unless one has just been started. -/
def startLine (d : Draft) : Draft := if d.atLineStart then d else d.newline

def pushLine (d : Draft) (text : String) : Draft := (startLine d).push text.toList

def pushFragment (d : Draft) (f : Fragment) : Draft :=
  (startLine d).pushFragment f.code.toList f.map

def body (a : Assembly) : Draft :=
  match a.script with
  | some script => pushFragment {} script
  | none => Draft.push {} (placeholder a.esm).toList

def pushTemplate (isFunctional : Bool) (d : Draft) (template : Fragment) : Draft :=
  let d := pushFragment d template
  let d := (d.insertBeforeLast? renderHelper coverageComment).getD d
  d.push (renderWiring isFunctional).toList

def pushParts (a : Assembly) (d : Draft) : Draft :=
  let d := match a.template with
    | some template => pushTemplate a.isFunctional d template
    | none => d
  let d := if a.styles.isEmpty then d else pushLine d (styleBlock a.isFunctional a.styles)
  match a.custom with
  | some code => pushLine d (";\n " ++ code)
  | none => d

/-- Lays out the parts.  Also gives what is wrong with them. -/
def assemble (a : Assembly) : Output × List Event :=
  let body := a.body
  let (line, events) := optionsAlias a.esm body.code
  let (code, map) := (a.pushParts (pushLine body line)).finish (some a.filename)
  (⟨code, map⟩, events)

end Assembly

end SingleFile
