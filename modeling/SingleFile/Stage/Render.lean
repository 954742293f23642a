import SingleFile.Assembly
import SingleFile.Stage.Context

/-!
# The render functions

What the compiler of templates makes of a template.  The options of the user are laid over the
request, and those for the compiler over its defaults.
-/

namespace SingleFile.Stage

/-- The option whose value is laid over the options for the compiler. -/
def compilerOptionsName : String := "compilerOptions"

/-- The options for the compiler where the user says nothing. -/
def compilerDefaults : Json := .object [("optimize", .bool false)]

def templateRequest (cx : Context κ) (template : TemplateBlock) (content : String)
    (bindings : Option Json) : TemplateRequest :=
  let user := cx.options.templateCompiler
  { source := content
    file := cx.file
    isFunctional := template.functional
    lang := template.lang
    preprocessOptions := template.lang.bind cx.options.preprocessOptions
    compilerOptions := match Json.lookup compilerOptionsName user with
      | some v => Json.merge compilerDefaults v
      | none => compilerDefaults
    bindings
    overrides := user.filter fun f => f.1 ≠ compilerOptionsName }

def render (cx : Context κ) (template : TemplateBlock) (bindings : Option Json) :
    Action κ Fragment := do
  let content ← match template.src with
    | some src => load cx.files src cx.file
    | none => pure template.content
  let some compiler := cx.compilers.template | throw (.settings (.noTemplateCompiler cx.file))
  let made ← cx.compile compiler (templateRequest cx template content bindings)
  stopAt made.errors
  return ⟨withoutMapComment made.code, made.map⟩

end SingleFile.Stage
