import SingleFile.Proofs.Transform.Stages
import SingleFile.Proofs.Transform.Surroundings
import SingleFile.Proofs.Transform.Exports

/-!
# Where blocks take their texts from

A script, a template or a style may stand in a file of its own, to which `src` refers.  Each stage
takes the text of its block from there or from the block itself (`TextOrigin`, `Stage.TakesText`) and
goes on with it.  But scripts and templates take every reference as a path from the place of the
component, while styles follow one only where nothing stands in the block, and apply the rules of the
project to it.  **`takesText_alike_iff`** says when the three come to the same file.
-/

namespace SingleFile

/-- Where the text of a block comes from: the block, or the file at a path that is referred to. -/
inductive TextOrigin where
  | inline
  | reference (src path : String)
deriving DecidableEq, Repr

/-- The file that a text stands in which comes from there, for a block of a component file. -/
def TextOrigin.file (component : String) : TextOrigin → String
  | .inline => component
  | .reference _ path => path

/-- The text that comes from there for a block with some content, in a component file. -/
def TextOrigin.text (files : Files) (file content : String) :
    TextOrigin → Except TransformFault String
  | .inline => .ok content
  | .reference src path =>
    match files.read path with
    | .ok text => .ok text
    | .error cause => .error (.load src file cause)

/-- A reference as a path from the place of the component, whatever stands in the block. -/
def Block.joinedOrigin (b : Block) (file : String) : TextOrigin :=
  match b.src with
  | some src => .reference src (Path.relativeTo file src)
  | none => .inline

/-- A reference to which the rules of the project are applied, where nothing stands in the block. -/
def Block.mappedOrigin (b : Block) (files : Files) (map : NameMap) (file : String) : TextOrigin :=
  match b.src.filter fun _ => allBlank b.content.toList with
  | some src => .reference src (Resolution.resolveMapped files map src file b.lang)
  | none => .inline

namespace Stage

open Routine

variable {κ : Type} {α : Type} {cx : Context κ}

/-- A stage goes on with the text of a block that comes from somewhere.  Where it cannot be read, the
stage fails; before that it only says something. -/
def TakesText (cx : Context κ) (b : Block) (origin : TextOrigin) (stage : Action κ α)
    (go : String → Action κ α) : Prop :=
  ∃ said : List Event, ∀ s, stage.run s =
    match origin.text cx.files cx.file b.content with
    | .ok text => (go text).run { s with events := s.events ++ said }
    | .error fault => (.error fault, { s with events := s.events ++ said })

theorem takesText_inline (b : Block) (go : String → Action κ α) :
    TakesText cx b .inline (go b.content) go := by
  refine ⟨[], fun s => ?_⟩
  rw [List.append_nil]
  rfl

theorem takesText_reference (b : Block) (src path : String) (event : Event)
    (go : String → Action κ α) :
    TakesText cx b (.reference src path)
      (Routine.log event >>= fun _ => readReference cx.files src cx.file path >>= go) go := by
  refine ⟨[event], fun s => ?_⟩
  have hlog : (Routine.log event : Action κ Unit).run s =
      (.ok (), { s with events := s.events ++ [event] }) := rfl
  rw [run_bind, hlog]
  dsimp only
  rw [run_bind]
  unfold readReference TextOrigin.text
  dsimp only
  cases cx.files.read path <;> rfl

/-- What is left to do for a script when its text is known. -/
def compileBody (cx : Context κ) (block : ScriptBlock) (content : String) : Action κ Fragment := do
  return plainFragment cx.file block content (← compileScript cx content block.lang)

/-- What is left to do for a style when its text and the file that it comes from are known. -/
def styleOf (cx : Context κ) (style : StyleBlock) (file content : String) : Action κ String := do
  if !cx.options.stylesCompiled || content.isEmpty then return emptyClassMap
  let imports := match style.lang with
    | some lang => Resolution.resourceImports cx.options.resources lang cx.files.directory
    | none => ""
  processStyle cx style (imports ++ content) file

theorem load_bind (src file : String) (go : String → Action κ α) :
    (load cx.files src file >>= go) =
      Routine.log ⟨.debug, "loading src", [("src", src), ("file", file),
        ("path", Path.relativeTo file src)]⟩ >>= fun _ =>
          readReference cx.files src file (Path.relativeTo file src) >>= go :=
  Routine.bind_assoc _ _ _

theorem takesText_load (b : Block) (src : String) (go : String → Action κ α) :
    TakesText cx b (.reference src (Path.relativeTo cx.file src)) (load cx.files src cx.file >>= go)
      go := by
  rw [load_bind]
  exact takesText_reference b src _ _ go

/-- A stage that loads the reference of its block, if it has one, whatever stands in the block. -/
theorem takesText_joined (b : Block) {stage : Action κ α} {go : String → Action κ α}
    (h : stage = match b.src with
      | some src => load cx.files src cx.file >>= go
      | none => go b.content) : TakesText cx b (b.joinedOrigin cx.file) stage go := by
  subst h
  unfold Block.joinedOrigin
  cases b.src with
  | none => exact takesText_inline b go
  | some src => exact takesText_load b src go

theorem takesText_plainBody (block : ScriptBlock) :
    TakesText cx block.toBlock (block.joinedOrigin cx.file) (plainBody cx block)
      (compileBody cx block) := by
  refine takesText_joined block.toBlock ?_
  unfold plainBody compileBody plainFragment
  cases block.src <;> rfl

theorem takesText_render (template : TemplateBlock) (bindings : Option Json) :
    TakesText cx template.toBlock (template.joinedOrigin cx.file) (render cx template bindings)
      (renderContent cx template bindings) := by
  refine takesText_joined template.toBlock ?_
  unfold render renderContent
  cases template.src <;> rfl

/-- A style goes on in the file that its text comes from. -/
theorem takesText_styleValue (style : StyleBlock) :
    TakesText cx style.toBlock (style.mappedOrigin cx.files cx.nameMap cx.file) (styleValue cx style)
      (styleOf cx style ((style.mappedOrigin cx.files cx.nameMap cx.file).file cx.file)) := by
  have hvalue : styleValue cx style = match style.src.filter fun _ => allBlank style.content.toList with
      | some src =>
        let path := Resolution.resolveMapped cx.files cx.nameMap src cx.file style.lang
        Routine.log ⟨.debug, "loading style src", [("src", src), ("path", path)]⟩ >>= fun _ =>
          readReference cx.files src cx.file path >>= styleOf cx style path
      | none => styleOf cx style cx.file style.content := by
    unfold styleValue styleContent
    cases style.src.filter fun _ => allBlank style.content.toList with
    | none => rfl
    | some src =>
      refine (Routine.bind_assoc _ _ _).trans (congrArg (_ >>= ·) (funext fun _ => ?_))
      exact Routine.bind_assoc _ _ _
  rw [hvalue]
  unfold Block.mappedOrigin
  cases style.src.filter fun _ => allBlank style.content.toList with
  | none => exact takesText_inline style.toBlock (styleOf cx style cx.file)
  | some src => exact takesText_reference _ src _ _ _

end Stage

/-! ### References that come to one file -/

/-- A reference that no rule knows, and that is neither absolute nor one to an installed module, is a
path from the place of the component. -/
theorem Resolution.resolveMapped_eq_relativeTo (files : Files) {map : NameMap} {name : String}
    (hrule : map.rewrite name = name) (hpath : Path.isAbsolute name.toList = false)
    (hmark : name.toList.head? ≠ some moduleMark) (file : String) (lang : Option String) :
    resolveMapped files map name file lang = Path.relativeTo file name := by
  rw [resolveMapped, hrule, resolveStyle, if_neg (by simp [hpath])]
  cases hname : name.toList with
  | nil => rfl
  | cons c r =>
    have hc : c ≠ moduleMark := fun h => hmark (by rw [hname, h]; rfl)
    simp only [if_neg hc]

namespace Stage

variable {κ : Type}

/-- **A script and a template with one reference take their texts from one place, whatever stands
in them, and a style does so just when it is blank and the rules of the project and of styles lead to
that place.** -/
theorem takesText_alike_iff (cx : Context κ) {script : ScriptBlock} {template : TemplateBlock}
    {style : StyleBlock} {src : String} (hscript : script.src = some src)
    (htemplate : template.src = some src) (hstyle : style.src = some src) :
    TakesText cx script.toBlock (script.joinedOrigin cx.file) (plainBody cx script)
        (compileBody cx script) ∧
      (∀ bindings, TakesText cx template.toBlock (template.joinedOrigin cx.file)
        (render cx template bindings) (renderContent cx template bindings)) ∧
      TakesText cx style.toBlock (style.mappedOrigin cx.files cx.nameMap cx.file) (styleValue cx style)
        (styleOf cx style ((style.mappedOrigin cx.files cx.nameMap cx.file).file cx.file)) ∧
      script.joinedOrigin cx.file = .reference src (Path.relativeTo cx.file src) ∧
      template.joinedOrigin cx.file = script.joinedOrigin cx.file ∧
      (style.mappedOrigin cx.files cx.nameMap cx.file = script.joinedOrigin cx.file ↔
        allBlank style.content.toList = true ∧
          Resolution.resolveMapped cx.files cx.nameMap src cx.file style.lang =
            Path.relativeTo cx.file src) := by
  have hjoined {b : Block} (hb : b.src = some src) :
      b.joinedOrigin cx.file = .reference src (Path.relativeTo cx.file src) := by
    unfold Block.joinedOrigin
    rw [hb]
  refine ⟨takesText_plainBody script, takesText_render template, takesText_styleValue style,
    hjoined hscript, (hjoined htemplate).trans (hjoined hscript).symm, ?_⟩
  rw [hjoined hscript, Block.mappedOrigin, hstyle, Option.filter_some]
  by_cases hblank : allBlank style.content.toList = true
  · rw [if_pos hblank]
    simp [hblank]
  · rw [if_neg hblank]
    simp [hblank]

end Stage

def referringBlock (src : String) : Block where
  span := ⟨0, 0⟩
  contentSpan := ⟨0, 0⟩
  content := ""
  attributes := [⟨"src", some src⟩]
  lang := none
  src := some src
  map := none

theorem takesText_alike_referringBlock :
    Stage.TakesText markedContext (referringBlock "./a.css")
        (.reference "./a.css" (Path.relativeTo markedFile "./a.css"))
        (Stage.plainBody markedContext ⟨referringBlock "./a.css", false⟩)
        (Stage.compileBody markedContext ⟨referringBlock "./a.css", false⟩) ∧
      (referringBlock "./a.css").mappedOrigin {} ⟨[]⟩ markedFile =
        (referringBlock "./a.css").joinedOrigin markedFile := by
  have hscript : (ScriptBlock.mk (referringBlock "./a.css") false).src = some "./a.css" := rfl
  have htemplate : (TemplateBlock.mk (referringBlock "./a.css") false).src = some "./a.css" := rfl
  have hstyle : (StyleBlock.mk (referringBlock "./a.css") false none).src = some "./a.css" := rfl
  obtain ⟨htext, -, -, hjoined, -, halike⟩ :=
    Stage.takesText_alike_iff markedContext hscript htemplate hstyle
  exact ⟨htext, halike.2 ⟨rfl, Resolution.resolveMapped_eq_relativeTo {} rfl (by decide)
    (by decide) markedFile none⟩⟩

/-! ### A reference that a rule of the project knows -/

def aliasedSource : String := "<script src=\"@/a.js\"></script>"

def aliasedFile : String := "/app/Aliased.vue"

/-- The settings of a project in which a mark stands for the directory of its sources. -/
def aliasedSettings : Settings := { project := { nameRules := [("^@/(.*)$", "/app/src/$1")] } }

/-- The file that is meant. -/
def aliasedFiles : Files where
  entries := [⟨["app".toList, "src".toList, "a.js".toList], "export default 1".toUTF8, false⟩]

/-- A style finds the file that is meant, a script does not. -/
theorem not_alike_aliasedSource :
    ∃ map, aliasedSettings.project.nameMap = .ok map ∧
      Resolution.resolveMapped aliasedFiles map "@/a.js" aliasedFile none = "/app/src/a.js" ∧
      aliasedFiles.read "/app/src/a.js" = .ok "export default 1" ∧
      ((plainTransformer.process aliasedFiles aliasedSource aliasedFile aliasedSettings .blocking).run
        ⟨[], ()⟩).1 = .error (.load "@/a.js" aliasedFile .notFound) := by
  have hmap : (aliasedSettings.project.nameMap.toOption.any fun map =>
      Resolution.resolveMapped aliasedFiles map "@/a.js" aliasedFile none = "/app/src/a.js") =
        true := by
    decide +kernel
  have hread : aliasedFiles.read "/app/src/a.js" = .ok "export default 1" := by
    decide +kernel
  have hrun : (match ((plainTransformer.process aliasedFiles aliasedSource aliasedFile
      aliasedSettings .blocking).run ⟨[], ()⟩).1 with
      | .error (.load src file cause) =>
        decide (src = "@/a.js" ∧ file = aliasedFile ∧ cause = .notFound)
      | _ => false) = true := by
    decide +kernel
  obtain ⟨map, hmade, hfinds⟩ := exists_ok_of_any hmap
  refine ⟨map, hmade, of_decide_eq_true hfinds, hread, ?_⟩
  split at hrun
  case h_1 src file cause hfails =>
    obtain ⟨rfl, rfl, rfl⟩ := of_decide_eq_true hrun
    exact hfails
  case h_2 => cases hrun

end SingleFile
