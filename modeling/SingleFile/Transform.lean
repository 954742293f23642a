import SingleFile.Component.Outline
import SingleFile.Settings.CacheKey
import SingleFile.Stage.Body
import SingleFile.Stage.ClassMap
import SingleFile.Stage.CustomCode
import SingleFile.Stage.Render

/-!
# Transforming a component

`SingleFileTransformer.processOn` makes a module of the text of a component on a machine, and
`SingleFileTransformer.process` among files that can be told.  It goes through the stages in order,
and the first failure ends it.  The pace says whether compilers may wait, and with it whether the
styles are processed together.
-/

namespace SingleFile

/-- A transformer of components: the compilers it uses, the catalog in which the options find
transformers by name, and transformers that are supplied directly with their patterns. -/
structure SingleFileTransformer (κ : Type) where
  compilers : Compilers κ := Compilers.builtIn
  catalog : String → Option (Transformer κ) := fun _ => none
  supplied : List (String × Transformer κ) := []

namespace SingleFileTransformer

/-- The context for a component.  The working directory comes last: where it cannot be told, faults of
the settings are still found first. -/
def contextOn (t : SingleFileTransformer κ) (machine : Machine) (file : String) (settings : Settings)
    (pace : Pace) : Action κ (Context κ) := do
  let options ← Routine.ofExcept settings.options
  let registry ← Registry.ofOptions options t.catalog t.supplied
  let nameMap ← Routine.ofExcept settings.project.nameMap
  let files ← Routine.ofExcept machine.files
  return { file, settings, options, registry, nameMap, files, compilers := t.compilers, pace }

def say (events : List Event) : Action κ Unit := do
  for e in events do Routine.log e

def parts (cx : Context κ) (component : Component) : Action κ Assembly := do
  let (script, bindings) ← Stage.body cx component
  let template ← match component.template with
    | some template => do pure (some (← Stage.render cx template bindings))
    | none => pure none
  let styles ← Stage.styleResults cx component.moduleStyles
  let custom ← Stage.customCode cx component.customBlocks
  return {
    filename := cx.file, esm := cx.settings.esm, isFunctional := component.isFunctional
    script, template, styles, custom }

/-- Makes a module of the text of a component. -/
def processOn (t : SingleFileTransformer κ) (machine : Machine) (source file : String)
    (settings : Settings) (pace : Pace) : Action κ Output := do
  let cx ← t.contextOn machine file settings pace
  let component := Component.parse source file
  say component.problemEvents
  say component.outlineEvents
  let (output, events) := (← parts cx component).assemble
  say events
  return output

/-! ### Where the working directory can be told -/

def context (t : SingleFileTransformer κ) (files : Files) (file : String) (settings : Settings)
    (pace : Pace) : Action κ (Context κ) :=
  t.contextOn (.ok files) file settings pace

def process (t : SingleFileTransformer κ) (files : Files) (source file : String)
    (settings : Settings) (pace : Pace) : Action κ Output :=
  t.processOn (.ok files) source file settings pace

end SingleFileTransformer

end SingleFile
