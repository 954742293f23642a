import SingleFile.Assembly
import SingleFile.Stage.Context
import SingleFile.Text.Blank

/-!
# The class maps of styles

Each style with a module becomes an object of its classes.  A style without content takes that of the
file it refers to; the resources of its language come before it; a registered transformer may
prepare the style, make plain CSS of it, and give the object itself.
-/

namespace SingleFile.Stage

def styleLang : String := "css"

def emptyClassMap : String := "\x7b\x7d"

def defaultModule : String := "$style"

/-- The content of a style and the file it comes from. -/
def styleContent (cx : Context κ) (style : StyleBlock) : Action κ (String × String) :=
  match style.src.filter fun _ => allBlank style.content.toList with
  | none => .done (style.content, cx.file)
  | some src => do
    let path := Resolution.resolveMapped cx.files cx.nameMap src cx.file style.lang
    Routine.log ⟨.debug, "loading style src", [("src", src), ("path", path)]⟩
    return (← readReference cx.files src cx.file path, path)

def hasImports (lang : Option String) : Bool := lang = some "scss" || lang = some "sass"

def languageOptions (lang : Option String) (file directory : String) : List (String × Json) :=
  if hasImports lang then [("filename", .string file)]
  else if lang = some "styl" ∨ lang = some "stylus" ∨ lang = some "less" then
    let above := String.ofList (Path.parent file.toList)
    [("paths", .array [.string above, .string directory])]
  else []

def styleRequest (cx : Context κ) (content file : String) (lang : Option String) : StyleRequest :=
  let preprocessOptions := cx.options.styleOptions.foldl (fun acc f => Json.insertField f.1 f.2 acc)
    (languageOptions lang file cx.files.directory)
  { source := content, file, lang, preprocessOptions
    importer :=
      if hasImports lang then
        some ((Resolution.Importer.mk cx.nameMap file lang).among cx.files)
      else none }

def compileStyle (cx : Context κ) (content file : String) (lang : Option String) :
    Action κ String := do
  let made ← cx.compile cx.compilers.style (styleRequest cx content file lang)
  stopAt made.errors
  return made.code

/-- The content as a transformer prepares it.  Where that fails it is said, and the content stays. -/
def prepared (t : Transformer κ) (text : StyleText) : Action κ String := do
  match ← (t.preprocess text).outcome with
  | .ok content => return content
  | .error fault =>
    Routine.log
      ⟨.warn, "There was an error while compiling " ++ text.file ++ " " ++ fault.text, []⟩
    return text.content

def classMap (css : String) : Action κ String :=
  match Css.classMap? css with
  | some v => .done v.compact
  | none => .fail .unreadableCss

/-- What a transformer with its hooks makes of a style, or the compiler where there is none. -/
def processStyle (cx : Context κ) (style : StyleBlock) (content file : String) :
    Action κ String := do
  let text (content : String) : StyleText := ⟨content, file, cx.settings, style.attributes⟩
  match cx.registry.find? (style.lang.getD styleLang) with
  | none => classMap (← compileStyle cx content file style.lang)
  | some t =>
    let content ← if t.hooks.preprocess then prepared t (text content) else pure content
    let css ←
      if t.hooks.canProcess then do pure (← cx.process t (.style (text content))).code
      else compileStyle cx content file style.lang
    if t.hooks.postprocess then Work.act (t.postprocess (text css)) else classMap css

def styleValue (cx : Context κ) (style : StyleBlock) : Action κ String := do
  let (content, file) ← styleContent cx style
  if !cx.options.stylesCompiled || content.isEmpty then return emptyClassMap
  let imports := match style.lang with
    | some lang => Resolution.resourceImports cx.options.resources lang cx.files.directory
    | none => ""
  processStyle cx style (imports ++ content) file

def styleResult (cx : Context κ) (style : StyleBlock) : Action κ StyleResult := do
  return ⟨style.moduleName.getD defaultModule, ← styleValue cx style⟩

/-- The styles as they are registered, in the order of the file. -/
def styleResults (cx : Context κ) (styles : List StyleBlock) : Action κ (List StyleResult) :=
  match cx.pace with
  | .blocking => Routine.inTurn (styles.map (styleResult cx))
  | .suspending => Routine.together (styles.map (styleResult cx))

end SingleFile.Stage
