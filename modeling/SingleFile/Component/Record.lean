import SingleFile.Component.Block
import SingleFile.Json.Record
import SingleFile.SourceMap.Writer

/-!
# Components as JSON

The form in which a component is handed to a compiler of setup scripts.  Attributes are an object;
those without a value, or with an empty one, are `true`.
-/

namespace SingleFile

/-- A map as a value, its fields sorted by key. -/
def SourceMap.toValue (map : SourceMap) : Json := map.toDocument.sorted

/-- A map or `null`. -/
def SourceMap.ofOption (map : Option SourceMap) : Json :=
  match map with
  | some map => map.toValue
  | none => .null

def Attribute.toJson (attributes : List Attribute) : Json :=
  .object (attributes.map fun a =>
    (a.name, match a.value with
      | some v => if v.isEmpty then .bool true else .string v
      | none => .bool true))

def Block.fields (b : Block) : List (String × Json) :=
  [("content", .string b.content), ("attrs", Attribute.toJson b.attributes),
   ("lang", .ofOption b.lang), ("src", .ofOption b.src), ("map", SourceMap.ofOption b.map)]

def TemplateBlock.toJson (b : TemplateBlock) : Json :=
  .object (b.fields ++ [("functional", .bool b.functional)])

def ScriptBlock.toJson (b : ScriptBlock) : Json := .object (b.fields ++ [("setup", .bool b.setup)])

def StyleBlock.toJson (b : StyleBlock) : Json :=
  .object (b.fields ++ [("scoped", .bool b.isScoped), ("module", .ofOption b.moduleName)])

def CustomBlock.toJson (b : CustomBlock) : Json :=
  .object (b.fields ++ [("type", .string b.kind)])

def Component.toJson (c : Component) : Json :=
  let orNull {α : Type} (f : α → Json) (v : Option α) : Json := (v.map f).getD .null
  .object [
    ("filename", .string c.filename), ("source", .string c.source),
    ("template", orNull TemplateBlock.toJson c.template),
    ("script", orNull ScriptBlock.toJson c.script),
    ("scriptSetup", orNull ScriptBlock.toJson c.setupScript),
    ("styles", .array (c.styles.map StyleBlock.toJson)),
    ("customBlocks", .array (c.customBlocks.map CustomBlock.toJson))]

end SingleFile
