import SingleFile.Compiling.Request
import SingleFile.Css.Compile
import SingleFile.Fault
import SingleFile.Routine
import SingleFile.Script.Interop

/-!
# Compilers

A compiler answers requests in two ways, one of which may wait.  `Compilers.builtIn` has the
compilers for plain scripts and styles; those for setup scripts, templates and typed scripts have to
be supplied.
-/

namespace SingleFile

/-- Whether a transformation may wait for compilers. -/
inductive Pace where
  | blocking
  | suspending
deriving DecidableEq, Repr

/-- What a compiler or transformer does: it may change its own state, wait, and fail. -/
abbrev Work (κ α : Type) := Routine (Session κ) CompilerFault α

structure Compiler (κ ρ α : Type) where
  blocking : ρ → Work κ α
  suspending : ρ → Work κ α

namespace Compiler

def compile (c : Compiler κ ρ α) : Pace → ρ → Work κ α
  | .blocking => c.blocking
  | .suspending => c.suspending

def ofBlocking (blocking : ρ → Work κ α) : Compiler κ ρ α := ⟨blocking, blocking⟩

def script : Compiler κ ScriptRequest Fragment := ofBlocking fun r =>
  let format := if r.settings.esm then .ecmaScript else .commonJS
  match Script.compile format r.file r.source with
  | .ok made => .done made
  | .error fault => .fail (.message fault.message)

def style : Compiler κ StyleRequest StyleOutput := ofBlocking fun r =>
  .done (Css.compile r.lang r.file r.source)

end Compiler

structure Compilers (κ : Type) where
  script : Compiler κ ScriptRequest Fragment := Compiler.script
  typeScript : Option (Compiler κ ScriptRequest Fragment) := none
  setup : Option (Compiler κ SetupRequest SetupOutput) := none
  template : Option (Compiler κ TemplateRequest TemplateOutput) := none
  style : Compiler κ StyleRequest StyleOutput := Compiler.style

def Compilers.builtIn : Compilers κ := {}

end SingleFile
