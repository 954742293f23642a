import SingleFile.CommandLine.Task
import SingleFile.Compiling.Bridge
import SingleFile.SourceMap.Writer
import SingleFile.Transform

/-!
# Carrying out a task

`CommandLine.run` gives the exit status and the output of a command line, from the files that are
there.  A usage fault has status 2 and any other failure status 1, both without output.
-/

namespace SingleFile

/-- A module with its map as a value, the map being a text. -/
def Output.toJson (o : Output) : Json :=
  .object [("code", .string o.code), ("map", .string o.map.toJson)]

namespace CommandLine

/-- How a run ends. -/
structure Exit where
  status : Nat
  output : String := ""
deriving DecidableEq, Repr

def versionText : String := "vue-jest-rs " ++ CacheKey.version

def helpText : String :=
  "Usage: vue-jest-rs [-c <CONFIG>] [-v] <COMMAND>\n\n" ++
  "Commands:\n" ++
  "  transform [--esm] [--async] [--bridge <BRIDGE>] [--bridge-arg <ARG>]... " ++
  "[--bridge-styles] [--output json|code] <FILE>\n" ++
  "  cache-key <FILE>\n  help"

/-- The settings of a task.  The root of the project is the working directory unless it is told, and
the text of the project is its configuration unless there is one. -/
def settingsOf (files : Files) (path : Option String) : Option Settings := do
  let settings ← match path with
    | none => some {}
    | some path => do
      let text ← (files.read path).toOption
      (Settings.parse text).toOption
  let project := { settings.project with
    rootDir := some (settings.project.rootDir.getD files.directory) }
  let text := settings.projectText
  return { settings with
    project, projectText := if text.isEmpty then project.toJson.compact else text }

def compilersOf (files : Files) (how : Transformation) : Option (Compilers Unit) :=
  match how.bridge with
  | none => some .builtIn
  | some name => do
    let found ← (Bridge.locate files name files.directory).toOption
    let bridge := { found with args := how.bridgeArgs }
    let runner := Command.run files
    let compilers : Compilers Unit := {
      typeScript := some (bridge.script runner), setup := some (bridge.setup runner)
      template := some (bridge.template runner) }
    return if how.bridgeStyles then { compilers with style := bridge.style runner } else compilers

def outputText (form : OutputForm) (output : Output) : String :=
  match form with
  | .json => output.toJson.pretty
  | .code => output.code

def transform (files : Files) (file source : String) (settings : Settings)
    (how : Transformation) : Option String := do
  let settings := { settings with esm := settings.esm || how.esm }
  let transformer : SingleFileTransformer Unit := { compilers := ← compilersOf files how }
  let pace := if how.suspending then Pace.suspending else Pace.blocking
  let output ← ((transformer.process files source file settings pace).run ⟨[], ()⟩).1.toOption
  return outputText how.form output

/-- The output of a task; nothing where it fails. -/
def Task.output? (files : Files) (task : Task) : Option String := do
  let settings ← settingsOf files task.settingsFile
  let source ← (files.read task.file).toOption
  match task.purpose with
  | .transform how => transform files task.file source settings how
  | .cacheKey => return CacheKey.ofFile source task.file settings

def run (files : Files) (args : List String) : Exit :=
  match Task.ofArgs args with
  | .error .usage => ⟨2, ""⟩
  | .error .version => ⟨0, versionText ++ "\n"⟩
  | .error .help => ⟨0, helpText ++ "\n"⟩
  | .ok task =>
    match task.output? files with
    | some text => ⟨0, text ++ "\n"⟩
    | none => ⟨1, ""⟩

/-! ## What a command line may read -/

/-- The paths that the blocks of a component may refer to. -/
def referencePaths (component : Component) (map : NameMap) : List String :=
  let file := component.filename
  let plain := (component.script.bind (·.src)).toList ++ (component.template.bind (·.src)).toList
  let styles := component.styles.flatMap fun style =>
    match style.src with
    | none => []
    | some src =>
      let name := map.rewrite src
      let installed := match name.toList with
        | _ :: module => Resolution.modulePaths module file.toList style.lang
        | [] => []
      let near := if Path.isAbsolute name.toList then name else Path.relativeTo file name
      near :: installed.map String.ofList
  plain.map (Path.relativeTo file) ++ styles

/-- The paths that a task may read, as far as the files tell that are known so far. -/
def Task.paths (files : Files) (task : Task) : List String :=
  let bridge := match task.purpose with
    | .transform { bridge := some name, .. } =>
      [String.ofList (Path.join Bridge.commandsPath name.toList)]
    | _ => []
  let references := do
    let settings ← settingsOf files task.settingsFile
    let source ← (files.read task.file).toOption
    let map ← settings.project.nameMap.toOption
    return referencePaths (Component.parse source task.file) map
  task.file :: (task.settingsFile.toList ++ bridge ++ references.getD [])

/-- The paths that a command line may read, as far as the files tell that are known so far. -/
def paths (files : Files) (args : List String) : List String :=
  match Task.ofArgs args with
  | .ok task => task.paths files
  | .error _ => []

end CommandLine

end SingleFile
