import SingleFile.Json.Record

/-!
# Settings

What a test runner says about one transformation: the format of modules, whether coverage is taken,
and the configuration of the project.  The options of the user are among the globals of the project,
under one of two names.
-/

namespace SingleFile

/-- The configuration of a project, as far as it is used here. -/
structure Project where
  rootDir : Option String := none
  nameRules : List (String × String) := []
  globals : List (String × Json) := []

structure Settings where
  esm : Bool := false
  instrument : Bool := false
  projectText : String := ""
  project : Project := {}

/-- The options of the user.  `preprocess` holds the options of template languages by name. -/
structure Options where
  transform : List (String × String) := []
  resources : List (String × List String) := []
  compileStyles : Option Bool := none
  styleOptions : List (String × Json) := []
  templateCompiler : List (String × Json) := []
  compilerOptions : List (String × Json) := []
  preprocess : List (String × Json) := []

/-- Whether styles are compiled; they are unless that is ruled out. -/
def Options.stylesCompiled (o : Options) : Bool := o.compileStyles ≠ some false

def Options.preprocessOptions (o : Options) (lang : String) : Option Json :=
  Json.lookup lang o.preprocess

namespace Project

def readPair : Json → Option (String × String)
  | .array [.string a, .string b] => some (a, b)
  | _ => none

/-- The rules for names of modules, in order: an object, a list of pairs, or nothing.  Of rules with
one name in an object the last counts, at the place of the first. -/
def readRules : Json → Option (List (String × String))
  | .null => some []
  | .object fields => do
    let rules ← Json.asFields Json.asString (.object fields)
    return rules.foldl (fun acc r => Json.setField r.1 r.2 acc) []
  | v => Json.asList readPair v

def readObject (v : Json) : Option (List (String × Json)) :=
  Json.asSortedFields (fun v => some v.sorted) v

def ofJson (v : Json) : Option Project := do
  let fields ← Json.recordFields ["rootDir", "moduleNameMapper", "globals"] v
  return {
    rootDir := ← Json.fieldOr fields "rootDir" none (Json.optional Json.asString)
    nameRules := ← Json.fieldOr fields "moduleNameMapper" [] readRules
    globals := ← Json.fieldOr fields "globals" [] readObject }

def toJson (p : Project) : Json :=
  .object [("rootDir", .ofOption p.rootDir),
    ("moduleNameMapper", .array (p.nameRules.map fun r => .array [.string r.1, .string r.2])),
    ("globals", .object p.globals)]

end Project

namespace Settings

def ofJson (v : Json) : Option Settings := do
  let fields ← Json.recordFields ["supportsStaticESM", "instrument", "configString", "config"] v
  return {
    esm := ← Json.fieldOr fields "supportsStaticESM" false Json.asBool
    instrument := ← Json.fieldOr fields "instrument" false Json.asBool
    projectText := ← Json.fieldOr fields "configString" "" Json.asString
    project := ← Json.fieldOr fields "config" {} Project.ofJson }

def toJson (s : Settings) : Json :=
  .object [("supportsStaticESM", .bool s.esm), ("instrument", .bool s.instrument),
    ("configString", .string s.projectText), ("config", s.project.toJson)]

end Settings

namespace Options

/-- The names under which the options may stand, the preferred one first. -/
def namespaces : List String := ["vue-jest", "vue2-swc-jest"]

/-- The names of the options; all other names are those of template languages. -/
def names : List String :=
  ["transform", "resources", "experimentalCSSCompile", "styleOptions", "templateCompiler",
   "compilerOptions"]

def ofJson (v : Json) : Option Options := do
  let fields ← Json.objectFields names v
  let others ← match v with
    | .object all => some (all.filter fun f => !names.contains f.1)
    | _ => none
  return {
    transform := ← Json.fieldOr fields "transform" [] (Json.asSortedFields Json.asString)
    resources := ←
      Json.fieldOr fields "resources" [] (Json.asSortedFields (Json.asList Json.asString))
    compileStyles := ←
      Json.fieldOr fields "experimentalCSSCompile" none (Json.optional Json.asBool)
    styleOptions := ← Json.fieldOr fields "styleOptions" [] Project.readObject
    templateCompiler := ← Json.fieldOr fields "templateCompiler" [] Project.readObject
    compilerOptions := ← Json.fieldOr fields "compilerOptions" [] Project.readObject
    preprocess := ← Project.readObject (.object others) }

def toJson (o : Options) : Json :=
  let compileStyles : Json := match o.compileStyles with
    | some b => .bool b
    | none => .null
  .object ([
    ("transform", .object (o.transform.map fun f => (f.1, .string f.2))),
    ("resources", .object (o.resources.map fun f => (f.1, .array (f.2.map .string)))),
    ("experimentalCSSCompile", compileStyles),
    ("styleOptions", .object o.styleOptions),
    ("templateCompiler", .object o.templateCompiler),
    ("compilerOptions", .object o.compilerOptions)] ++ o.preprocess)

end Options

/-- The value under which the options of the user stand, with its name. -/
def Settings.optionsEntry? (s : Settings) : Option (String × Json) :=
  Options.namespaces.findSome? fun name => (Json.lookup name s.project.globals).map (name, ·)

end SingleFile
