import SingleFile.Assembly
import SingleFile.SourceMap.Compose
import SingleFile.Stage.Context

/-!
# The body of the module

The body comes from the plain script or from what is made of the setup script.  A registered
transformer for the language comes first; languages of the typed family have a compiler of their
own.  The map of the body leads to the component, or to the file that the script refers to.
-/

namespace SingleFile.Stage

def scriptLang : String := "js"

/-- Whether a language is of the typed family: by its full name, or by how its name ends. -/
def isTyped (lang : String) : Bool :=
  lang = "typescript" || "ts".toList.isSuffixOf lang.toList || "tsx".toList.isSuffixOf lang.toList

/-- The compiler for a language that no transformer takes. -/
def compilerFor (cx : Context κ) (lang : String) : Action κ (Compiler κ ScriptRequest Fragment) :=
  if isTyped lang then do
    Routine.log ⟨.debug, "compiling script as TypeScript", [("file", cx.file), ("lang", lang)]⟩
    match cx.compilers.typeScript with
    | some compiler => return compiler
    | none => throw (.settings (.noTypeScript lang cx.file))
  else .done cx.compilers.script

def compileScript (cx : Context κ) (source : String) (lang : Option String) :
    Action κ Fragment := do
  let tag := lang.getD scriptLang
  match cx.registry.find? tag with
  | some transformer =>
    Routine.log
      ⟨.debug, "compiling script with custom transformer", [("file", cx.file), ("lang", tag)]⟩
    return (← cx.process transformer (.script source cx.file cx.settings)).fragment
  | none =>
    let compiler ← compilerFor cx tag
    cx.compile compiler ⟨source, cx.file, lang, cx.settings⟩

def plainBody (cx : Context κ) (block : ScriptBlock) : Action κ Fragment := do
  match block.src with
  | some src =>
    let content ← load cx.files src cx.file
    let made ← compileScript cx content block.lang
    return ⟨withoutMapComment made.code,
      made.map.map fun m => m.retarget (Path.relativeTo cx.file src) content⟩
  | none =>
    let made ← compileScript cx block.content block.lang
    return ⟨withoutMapComment made.code, SourceMap.merge? block.map made.map⟩

/-- The body from a setup script, with the names that the template may use. -/
def setupBody (cx : Context κ) (component : Component) (block : ScriptBlock) :
    Action κ (Fragment × Option Json) := do
  let some compiler := cx.compilers.setup | throw (.settings (.noSetupCompiler cx.file))
  let options : SetupOptions := { id := cx.file, extra := cx.options.compilerOptions }
  let script ← cx.compile compiler ⟨component, options⟩
  let made ← compileScript cx script.content block.lang
  let map := SourceMap.merge? (SourceMap.merge? block.map script.map) made.map
  return (⟨withoutMapComment made.code, map⟩, script.bindings)

/-- The body of a component, where it has one, with the names that the template may use. -/
def body (cx : Context κ) (component : Component) : Action κ (Option Fragment × Option Json) :=
  match component.setupScript, component.script with
  | some block, _ => do
    let (made, bindings) ← setupBody cx component block
    return (some made, bindings)
  | none, some block => do return (some (← plainBody cx block), none)
  | none, none => .done (none, none)

end SingleFile.Stage
