import SingleFile.Files.Store
import SingleFile.Resolution.NameMap

/-!
# Imports of styles

A style names other styles by absolute paths, by paths from its own file, or, after a tilde, by names
that are looked for in the `node_modules` of every directory above.  There a name may lack its
extension, and a partial style has an underscore before its name.  A compiler that comes upon an import
asks an `ImportResolver` what it means, and with that looks for files.
-/

namespace SingleFile.Resolution

/-- The extensions of styles, in the order in which they are tried after the language's own. -/
def styleExtensions : List String := ["scss", "sass", "css"]

def modulesName : List Char := "node_modules".toList

def moduleMark : Char := '~'

def hasStyleExtension (name : List Char) : Bool :=
  styleExtensions.any fun e => ('.' :: e.toList).isSuffixOf name

def withoutRepeats : List String → List String
  | [] => []
  | x :: rest => x :: (withoutRepeats rest).filter (· ≠ x)

/-- The names of files that a name may mean, the preferred one first. -/
def candidateNames (name : List Char) (lang : Option String) : List (List Char) :=
  if hasStyleExtension name then [name, '_' :: name]
  else (withoutRepeats (lang.toList ++ styleExtensions)).flatMap fun e =>
    let full := name ++ '.' :: e.toList
    [full, '_' :: full]

/-- The paths at which an installed module may be, the preferred one first. -/
def modulePaths (module file : List Char) (lang : Option String) : List (List Char) :=
  let names := candidateNames ((Path.fileName? module).getD []) lang
  (Path.ancestors (Path.parent file)).flatMap fun above =>
    let base := Path.join (Path.join above modulesName) (Path.parent module)
    names.map (Path.join base)

/-- The path that an import of a style means in a file. -/
def resolveStyle (files : Files) (name file : String) (lang : Option String) : String :=
  if Path.isAbsolute name.toList then name
  else
    let found := match name.toList with
      | c :: module =>
        if c = moduleMark then (modulePaths module file.toList lang).find? files.isFile else none
      | [] => none
    match found with
    | some path => String.ofList path
    | none => Path.relativeTo file name

/-- The path that an import means once the rules of the project have been applied to it. -/
def resolveMapped (files : Files) (map : NameMap) (name file : String) (lang : Option String) :
    String :=
  resolveStyle files (map.rewrite name) file lang

structure Importer where
  map : NameMap
  file : String
  lang : Option String

/-- The name that stands for the style itself where it is the importing file. -/
def Importer.selfName : String := "stdin"

/-- The path that an import means; `from` is the importing file. -/
def Importer.resolve (importer : Importer) (files : Files) (name importing : String) : String :=
  let file := if importing = Importer.selfName then importer.file else importing
  resolveMapped files importer.map name file importer.lang

/-- An importer that can be asked: `answer name importing` is the path that `name` means in the file
`importing`. -/
structure ImportResolver extends Importer where
  answer : String → String → String

def Importer.among (importer : Importer) (files : Files) : ImportResolver :=
  { importer with answer := importer.resolve files }

/-- The line that imports a file, in the way of the language. -/
def importLine (lang path : String) : String :=
  if lang = "sass" then "@import \"" ++ path ++ "\"\n" else "@import \"" ++ path ++ "\";\n"

/-- The lines that import the resources of a language, told from a directory. -/
def resourceImports (resources : List (String × List String)) (lang directory : String) : String :=
  let paths := (resources.lookup lang).getD []
  String.join (paths.map fun resource =>
    importLine lang (String.ofList (Path.normalize (Path.join directory.toList resource.toList))))

end SingleFile.Resolution
