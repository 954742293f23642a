import SingleFile.Component.Record
import SingleFile.SourceMap.Reader

/-!
# What compilers give

A compiler of scripts gives a fragment; the others give records of their own.  All of them are also
read from JSON, where a map is an object or a text that holds one.
-/

namespace SingleFile

/-- The code made of a style, and what is wrong with it. -/
structure StyleOutput where
  code : String
  errors : List String := []
deriving DecidableEq, Repr

/-- The render functions made of a template, and what is wrong with it. -/
structure TemplateOutput where
  code : String
  map : Option SourceMap := none
  errors : List String := []

/-- The script made of a setup script, with the names that a template may use. -/
structure SetupOutput where
  content : String
  map : Option SourceMap := none
  bindings : Option Json := none

def SourceMap.optionOfJson : Json → Option (Option SourceMap)
  | .null => some none
  | .string text => (SourceMap.parse text).toOption.map some
  | v => (SourceMap.ofJson v.sorted).toOption.map some

def SourceMap.ofField (fields : List (String × Json)) : Option (Option SourceMap) :=
  Json.fieldOr fields "map" none SourceMap.optionOfJson

def errorsField (fields : List (String × Json)) : Option (List String) :=
  Json.fieldOr fields "errors" [] (Json.asList Json.asString)

def Fragment.ofJson (v : Json) : Option Fragment := do
  let fields ← Json.recordFields ["code", "map"] v
  return ⟨← Json.field fields "code" Json.asString, ← SourceMap.ofField fields⟩

def Fragment.toJson (f : Fragment) : Json :=
  .object [("code", .string f.code), ("map", SourceMap.ofOption f.map)]

def StyleOutput.ofJson (v : Json) : Option StyleOutput := do
  let fields ← Json.recordFields ["code", "errors"] v
  return ⟨← Json.field fields "code" Json.asString, ← errorsField fields⟩

def StyleOutput.toJson (o : StyleOutput) : Json :=
  .object [("code", .string o.code), ("errors", .array (o.errors.map .string))]

def TemplateOutput.ofJson (v : Json) : Option TemplateOutput := do
  let fields ← Json.recordFields ["code", "map", "errors"] v
  return {
    code := ← Json.field fields "code" Json.asString
    map := ← SourceMap.ofField fields
    errors := ← errorsField fields }

def TemplateOutput.toJson (o : TemplateOutput) : Json :=
  .object [("code", .string o.code), ("map", SourceMap.ofOption o.map),
    ("errors", .array (o.errors.map .string))]

def SetupOutput.ofJson (v : Json) : Option SetupOutput := do
  let fields ← Json.recordFields ["content", "map", "bindings"] v
  return {
    content := ← Json.field fields "content" Json.asString
    map := ← SourceMap.ofField fields
    bindings := ← Json.fieldOr fields "bindings" none (Json.optional Json.asObject) }

def SetupOutput.toJson (o : SetupOutput) : Json :=
  .object [("content", .string o.content), ("map", SourceMap.ofOption o.map),
    ("bindings", o.bindings.getD .null)]

end SingleFile
