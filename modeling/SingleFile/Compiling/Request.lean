import SingleFile.Compiling.Output
import SingleFile.Resolution.Import
import SingleFile.Settings.Basic

/-!
# What compilers are asked

The requests to the compilers, and their form in JSON.  Options of the user are laid over a request
as fields of their own, after the fixed ones.
-/

namespace SingleFile

structure ScriptRequest where
  source : String
  file : String
  lang : Option String
  settings : Settings

/-- The options for a setup script: the component it belongs to, whether reactive variables are
rewritten, and the options of the user. -/
structure SetupOptions where
  id : String
  reactivityTransform : Bool := true
  extra : List (String × Json) := []

/-- The request to make one script of the setup script of a component. -/
structure SetupRequest where
  component : Component
  options : SetupOptions

structure TemplateRequest where
  source : String
  file : String
  isFunctional : Bool
  lang : Option String
  preprocessOptions : Option Json
  compilerOptions : Json
  bindings : Option Json
  overrides : List (String × Json)

/-- The request to compile a style.  The importer resolves what the style imports. -/
structure StyleRequest where
  source : String
  file : String
  lang : Option String
  preprocessOptions : List (String × Json)
  isScoped : Bool := false
  importer : Option Resolution.ImportResolver := none

def ScriptRequest.toJson (r : ScriptRequest) : Json :=
  .object [("source", .string r.source), ("filename", .string r.file), ("lang", .ofOption r.lang),
    ("config", r.settings.toJson)]

def SetupOptions.toJson (o : SetupOptions) : Json :=
  .object ([("id", .string o.id), ("reactivityTransform", .bool o.reactivityTransform)] ++ o.extra)

def SetupRequest.toJson (r : SetupRequest) : Json :=
  .object [("descriptor", r.component.toJson), ("options", r.options.toJson)]

def TemplateRequest.toJson (r : TemplateRequest) : Json :=
  .object ([("source", .string r.source), ("filename", .string r.file),
    ("isFunctional", .bool r.isFunctional), ("preprocessLang", .ofOption r.lang),
    ("preprocessOptions", r.preprocessOptions.getD .null), ("compilerOptions", r.compilerOptions),
    ("bindings", r.bindings.getD .null)] ++ r.overrides)

def StyleRequest.toJson (r : StyleRequest) : Json :=
  .object [("source", .string r.source), ("filePath", .string r.file),
    ("preprocessLang", .ofOption r.lang), ("preprocessOptions", .object r.preprocessOptions),
    ("scoped", .bool r.isScoped)]

end SingleFile
