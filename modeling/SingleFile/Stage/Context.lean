import SingleFile.Component.Reader
import SingleFile.Transformer.Registry

/-!
# The context of a transformation

What all stages of a transformation share, and the steps that more than one of them takes: loading
what a block refers to, and stopping where a compiler found something wrong.
-/

namespace SingleFile

/-- What the stages share. -/
structure Context (κ : Type) where
  file : String
  settings : Settings
  options : Options
  registry : Registry κ
  nameMap : NameMap
  files : Files
  compilers : Compilers κ
  pace : Pace

namespace Stage

/-- The text of the file at a path, which a block refers to. -/
def readReference (files : Files) (src file path : String) : Action κ String :=
  match files.read path with
  | .ok text => .done text
  | .error cause => .fail (.load src file cause)

/-- Loads what a script or template refers to, told from the place of the component. -/
def load (files : Files) (src file : String) : Action κ String := do
  let path := Path.relativeTo file src
  Routine.log ⟨.debug, "loading src", [("src", src), ("file", file), ("path", path)]⟩
  readReference files src file path

/-- Says what a compiler found wrong, and stops if there is anything. -/
def stopAt (diagnostics : List String) : Action κ Unit :=
  if diagnostics.isEmpty then .done ()
  else do
    for text in diagnostics do Routine.log ⟨.error, "\n" ++ text ++ "\n", []⟩
    throw (.diagnostics diagnostics)

end Stage

def Context.process (cx : Context κ) (t : Transformer κ) (input : HookInput) :
    Action κ HookOutput :=
  Work.act (t.processAt cx.pace input)

def Context.compile (cx : Context κ) (c : Compiler κ ρ α) (request : ρ) : Action κ α :=
  Work.act (c.compile cx.pace request)

end SingleFile
