import SingleFile.Proofs.Transform.Exports

/-!
# What a transformation reads

A transformation needs a machine whose working directory can be told.  Of that machine it takes the
files that the script, the template and the styles with a module refer to, the working directory where
the language of a style has resources or looks for imports in directories, and, where the compiler of
a style asks for imports, the files that these are found at.  `Settings.surroundings` lists this, and
nothing else of the machine matters (`process_congr`), apart from what supplied compilers do on their
own.  The cache key covers none of it, so one key stands for different results
(`not_linkedResult_eq`).
-/

namespace SingleFile

/-- What is read for a style: the path that it refers to with what is found there, the working
directory, and the path that each import means in each file. -/
structure StyleSurroundings where
  reference : Option (String × Except Trouble String)
  directory : Option String
  imports : Option (String → String → String)

structure Surroundings where
  script : Option (Except Trouble String)
  template : Option (Except Trouble String)
  styles : List StyleSurroundings

namespace Stage

/-- Whether the working directory takes part in compiling a style. -/
def usesDirectory (options : Options) (lang : Option String) : Bool :=
  options.stylesCompiled && lang.any fun lang =>
    lang = "styl" || lang = "stylus" || lang = "less" ||
      !((options.resources.lookup lang).getD []).isEmpty

def asksImports (options : Options) (lang : Option String) : Bool :=
  options.stylesCompiled && hasImports lang

/-- The text that a script or a template refers to, told from the place of the component. -/
def referenceText (files : Files) (file : String) (b : Block) : Option (Except Trouble String) :=
  b.src.map fun src => files.read (Path.relativeTo file src)

def styleSurroundings (options : Options) (map : NameMap) (files : Files) (file : String)
    (style : StyleBlock) : StyleSurroundings where
  reference := (style.src.filter fun _ => allBlank style.content.toList).map fun src =>
    let path := Resolution.resolveMapped files map src file style.lang
    (path, files.read path)
  directory := if usesDirectory options style.lang then some files.directory else none
  imports :=
    if asksImports options style.lang then
      some fun name importing => Resolution.resolveMapped files map name importing style.lang
    else none

end Stage

/-- What is read for a component under some options.  A plain script beside a setup script is not
looked at. -/
def Component.surroundings (c : Component) (options : Options) (map : NameMap) (files : Files)
    (file : String) : Surroundings where
  script := (if c.setupScript.isSome then none else c.script).bind fun b =>
    Stage.referenceText files file b.toBlock
  template := c.template.bind fun b => Stage.referenceText files file b.toBlock
  styles := c.moduleStyles.map (Stage.styleSurroundings options map files file)

/-- What the transformation of a text reads under some settings: nothing where these are refused, and
only why the working directory cannot be told where it cannot. -/
def Settings.surroundings (settings : Settings) (source file : String) (machine : Machine) :
    Option (Except Trouble Surroundings) := do
  let options ← settings.options.toOption
  let map ← settings.project.nameMap.toOption
  return machine.map fun files => (Component.parse source file).surroundings options map files file

/-- Whether a component refers to no file and has no style to which the working directory or an import
matters. -/
structure Component.SelfContained (c : Component) (options : Options) : Prop where
  script : ∀ b ∈ c.script, c.setupScript = none → b.src = none
  template : ∀ b ∈ c.template, b.src = none
  styles : ∀ b ∈ c.moduleStyles, b.src = none ∧ Stage.usesDirectory options b.lang = false ∧
    Stage.asksImports options b.lang = false

/-- Of a component that refers to nothing, nothing is read. -/
theorem Component.SelfContained.surroundings_eq {c : Component} {options : Options}
    (h : c.SelfContained options) (map : NameMap) (files files' : Files) (file : String) :
    c.surroundings options map files file = c.surroundings options map files' file := by
  have hreference {b : Block} (hb : b.src = none) (files : Files) :
      Stage.referenceText files file b = none := by
    unfold Stage.referenceText
    rw [hb]
    rfl
  have hscript (files : Files) : ((if c.setupScript.isSome then none else c.script).bind fun b =>
      Stage.referenceText files file b.toBlock) = none := by
    cases hsetup : c.setupScript with
    | some _ => rfl
    | none =>
      cases hb : c.script with
      | none => rfl
      | some b => exact hreference (h.script b hb hsetup) files
  have htemplate (files : Files) :
      (c.template.bind fun b => Stage.referenceText files file b.toBlock) = none := by
    cases hb : c.template with
    | none => rfl
    | some b => exact hreference (h.template b hb) files
  have hstyles : c.moduleStyles.map (Stage.styleSurroundings options map files file) =
      c.moduleStyles.map (Stage.styleSurroundings options map files' file) := by
    refine List.map_congr_left fun b hb => ?_
    obtain ⟨hsrc, hdirectory, himports⟩ := h.styles b hb
    unfold Stage.styleSurroundings
    rw [hsrc, hdirectory, himports]
    rfl
  unfold Component.surroundings
  rw [hscript files, hscript files', htemplate files, htemplate files', hstyles]

/-- What is read for a component that refers to nothing is the same wherever the working directory can
be told. -/
theorem Settings.surroundings_eq_of_selfContained {settings : Settings} {source file : String}
    (h : ∀ options ∈ settings.options.toOption,
      (Component.parse source file).SelfContained options) (files files' : Files) :
    settings.surroundings source file (.ok files) = settings.surroundings source file (.ok files') := by
  unfold surroundings
  refine Option.bind_congr fun options hoptions => Option.bind_congr fun map _ => ?_
  exact congrArg (fun s => some (Except.ok s)) ((h options hoptions).surroundings_eq map files files' file)

variable {κ : Type}

/-- The same context on another machine. -/
def Context.on (cx : Context κ) (files : Files) : Context κ := { cx with files }

namespace Stage

variable {cx : Context κ} {files files' : Files}

theorem readReference_congr {src file path : String} (h : files.read path = files'.read path) :
    (readReference files src file path : Action κ String) = readReference files' src file path := by
  unfold readReference
  rw [h]

theorem load_congr {b : Block} {src file : String} (hsrc : b.src = some src)
    (h : referenceText files file b = referenceText files' file b) :
    (load files src file : Action κ String) = load files' src file := by
  unfold referenceText at h
  rw [hsrc] at h
  unfold load
  dsimp only
  rw [readReference_congr (Option.some.inj h)]

theorem plainBody_on_congr {block : ScriptBlock}
    (h : referenceText files cx.file block.toBlock = referenceText files' cx.file block.toBlock) :
    plainBody (cx.on files) block = plainBody (cx.on files') block := by
  unfold plainBody
  cases hsrc : block.src with
  | none => rfl
  | some src =>
    show ((load files src cx.file : Action κ String) >>= _) = (load files' src cx.file >>= _)
    rw [load_congr hsrc h]
    rfl

theorem body_on_congr {c : Component} {options : Options} {map : NameMap}
    (h : c.surroundings options map files cx.file = c.surroundings options map files' cx.file) :
    body (cx.on files) c = body (cx.on files') c := by
  replace h := congrArg Surroundings.script h
  unfold Component.surroundings at h
  unfold body
  cases hsetup : c.setupScript with
  | some block => rfl
  | none =>
    rw [hsetup] at h
    cases hscript : c.script with
    | none => rfl
    | some block =>
      rw [hscript] at h
      exact congrArg (· >>= fun made => pure (some made, none)) (plainBody_on_congr h)

theorem render_on_congr {template : TemplateBlock} {bindings : Option Json}
    (h : referenceText files cx.file template.toBlock =
      referenceText files' cx.file template.toBlock) :
    render (cx.on files) template bindings = render (cx.on files') template bindings := by
  unfold render
  cases hsrc : template.src with
  | none => rfl
  | some src =>
    show ((load files src cx.file : Action κ String) >>= _) = (load files' src cx.file >>= _)
    rw [load_congr hsrc h]
    rfl

/-! ### Styles -/

theorem languageOptions_congr {options : Options} {lang : Option String} {file d d' : String}
    (hcompiled : options.stylesCompiled = true) (h : usesDirectory options lang = true → d = d') :
    languageOptions lang file d = languageOptions lang file d' := by
  by_cases hlang : lang = some "styl" ∨ lang = some "stylus" ∨ lang = some "less"
  · rw [h ?_]
    unfold usesDirectory
    rcases hlang with rfl | rfl | rfl <;> rw [hcompiled] <;> rfl
  · unfold languageOptions
    rw [if_neg hlang, if_neg hlang]

theorem resourceImports_congr {options : Options} {lang d d' : String}
    (hcompiled : options.stylesCompiled = true)
    (h : usesDirectory options (some lang) = true → d = d') :
    Resolution.resourceImports options.resources lang d =
      Resolution.resourceImports options.resources lang d' := by
  cases hpaths : (options.resources.lookup lang).getD [] with
  | nil =>
    unfold Resolution.resourceImports
    rw [hpaths]
    rfl
  | cons path paths =>
    rw [h ?_]
    unfold usesDirectory
    rw [hcompiled]
    simp [hpaths]

/-- An importer answers alike among files among which its imports mean the same. -/
theorem among_congr (importer : Resolution.Importer)
    (h : ∀ name importing, Resolution.resolveMapped files importer.map name importing importer.lang =
      Resolution.resolveMapped files' importer.map name importing importer.lang) :
    importer.among files = importer.among files' :=
  congrArg (Resolution.ImportResolver.mk importer) (funext fun name => funext fun importing =>
    h name (if importing = Resolution.Importer.selfName then importer.file else importing))

/-- What two machines have to share for one to compile a style of a language as the other does. -/
structure CompilesAlike (cx : Context κ) (files files' : Files) (lang : Option String) : Prop where
  directory : usesDirectory cx.options lang = true → files.directory = files'.directory
  imports : asksImports cx.options lang = true → ∀ name importing,
    Resolution.resolveMapped files cx.nameMap name importing lang =
      Resolution.resolveMapped files' cx.nameMap name importing lang

theorem styleRequest_on_congr {lang : Option String} (hcompiled : cx.options.stylesCompiled = true)
    (h : CompilesAlike cx files files' lang) (content file : String) :
    styleRequest (cx.on files) content file lang = styleRequest (cx.on files') content file lang := by
  have himporter : (if hasImports lang then
        some ((Resolution.Importer.mk cx.nameMap file lang).among files) else none) =
      if hasImports lang then
        some ((Resolution.Importer.mk cx.nameMap file lang).among files') else none := by
    split
    · next hlang =>
      have hasks : asksImports cx.options lang = true := by
        unfold asksImports
        rw [hcompiled, hlang]
        rfl
      rw [among_congr ⟨cx.nameMap, file, lang⟩ (h.imports hasks)]
    · rfl
  unfold styleRequest
  show StyleRequest.mk _ _ _ (cx.options.styleOptions.foldl _
      (languageOptions lang file files.directory)) _ _ =
    StyleRequest.mk _ _ _ (cx.options.styleOptions.foldl _
      (languageOptions lang file files'.directory)) _ _
  rw [languageOptions_congr hcompiled h.directory]
  exact congrArg _ himporter

theorem compileStyle_on_congr {lang : Option String} (hcompiled : cx.options.stylesCompiled = true)
    (h : CompilesAlike cx files files' lang) (content file : String) :
    compileStyle (cx.on files) content file lang = compileStyle (cx.on files') content file lang := by
  unfold compileStyle
  rw [styleRequest_on_congr hcompiled h]
  rfl

theorem processStyle_on_congr {style : StyleBlock} (hcompiled : cx.options.stylesCompiled = true)
    (h : CompilesAlike cx files files' style.lang) (content file : String) :
    processStyle (cx.on files) style content file =
      processStyle (cx.on files') style content file := by
  unfold processStyle
  simp only [compileStyle_on_congr hcompiled h]
  rfl

theorem styleContent_on_congr {options : Options} {style : StyleBlock}
    (h : styleSurroundings options cx.nameMap files cx.file style =
      styleSurroundings options cx.nameMap files' cx.file style) :
    styleContent (cx.on files) style = styleContent (cx.on files') style := by
  replace h := congrArg StyleSurroundings.reference h
  unfold styleSurroundings at h
  unfold styleContent
  cases hsrc : style.src.filter fun _ => allBlank style.content.toList with
  | none => rfl
  | some src =>
    rw [hsrc] at h
    obtain ⟨hpath, hread⟩ := Prod.mk.inj (Option.some.inj h)
    rw [hpath] at hread
    simp only [Context.on, hpath, readReference_congr hread]

theorem compilesAlike_of_surroundings {style : StyleBlock}
    (h : styleSurroundings cx.options cx.nameMap files cx.file style =
      styleSurroundings cx.options cx.nameMap files' cx.file style) :
    CompilesAlike cx files files' style.lang where
  directory := by
    intro huses
    replace h := congrArg StyleSurroundings.directory h
    unfold styleSurroundings at h
    rw [if_pos huses, if_pos huses] at h
    exact Option.some.inj h
  imports := by
    intro hasks name importing
    replace h := congrArg StyleSurroundings.imports h
    unfold styleSurroundings at h
    rw [if_pos hasks, if_pos hasks] at h
    exact congrFun (congrFun (Option.some.inj h) name) importing

theorem styleValue_on_congr {style : StyleBlock}
    (h : styleSurroundings cx.options cx.nameMap files cx.file style =
      styleSurroundings cx.options cx.nameMap files' cx.file style) :
    styleValue (cx.on files) style = styleValue (cx.on files') style := by
  unfold styleValue
  rw [styleContent_on_congr h]
  refine congrArg (styleContent (cx.on files') style >>= ·) (funext fun ⟨content, file⟩ => ?_)
  have halike := compilesAlike_of_surroundings h
  show (if !cx.options.stylesCompiled || content.isEmpty then _ else _) =
    if !cx.options.stylesCompiled || content.isEmpty then _ else _
  split
  · rfl
  · next hcompiled =>
    replace hcompiled : cx.options.stylesCompiled = true := by
      by_contra hnot
      exact hcompiled (by rw [Bool.eq_false_iff.2 hnot]; rfl)
    dsimp only
    rw [processStyle_on_congr hcompiled halike]
    cases hlang : style.lang with
    | none => rfl
    | some lang =>
      rw [hlang] at halike
      show processStyle _ _
        (Resolution.resourceImports cx.options.resources lang files.directory ++ _) _ = _
      rw [resourceImports_congr hcompiled halike.directory]
      rfl

theorem styleResults_on_congr {c : Component}
    (h : c.surroundings cx.options cx.nameMap files cx.file =
      c.surroundings cx.options cx.nameMap files' cx.file) :
    styleResults (cx.on files) c.moduleStyles = styleResults (cx.on files') c.moduleStyles := by
  have hresults : c.moduleStyles.map (styleResult (cx.on files)) =
      c.moduleStyles.map (styleResult (cx.on files')) := by
    refine List.map_congr_left fun style hstyle => ?_
    have hsurroundings := List.map_inj_left.1 (congrArg Surroundings.styles h) style hstyle
    unfold styleResult
    rw [styleValue_on_congr hsurroundings]
  unfold styleResults
  rw [hresults]
  rfl

end Stage

theorem Routine.bind_assoc {σ ε α β γ : Type} (p : Routine σ ε α) (f : α → Routine σ ε β)
    (g : β → Routine σ ε γ) : p >>= f >>= g = p >>= fun a => f a >>= g := by
  show bind g (bind f p) = bind (fun a => bind g (f a)) p
  induction p with
  | done a => rfl
  | fail e => rfl
  | read next ih => exact congrArg Routine.read (funext ih)
  | write s next ih => exact congrArg (Routine.write s) ih
  | wait next ih => exact congrArg Routine.wait ih

namespace SingleFileTransformer

theorem parts_on_congr {cx : Context κ} {files files' : Files} {c : Component}
    (h : c.surroundings cx.options cx.nameMap files cx.file =
      c.surroundings cx.options cx.nameMap files' cx.file) :
    parts (cx.on files) c = parts (cx.on files') c := by
  have htemplate := congrArg Surroundings.template h
  unfold Component.surroundings at htemplate
  unfold parts
  rw [Stage.body_on_congr h, Stage.styleResults_on_congr h]
  cases hblock : c.template with
  | none => rfl
  | some template =>
    rw [hblock] at htemplate
    dsimp only
    simp only [Stage.render_on_congr htemplate]
    rfl

/-- **A transformation depends on nothing of its machine but what it reads.**  It does the same, in the
same steps, on two machines on which it reads the same. -/
theorem process_congr (t : SingleFileTransformer κ) {machine machine' : Machine}
    {source file : String} {settings : Settings}
    (h : settings.surroundings source file machine = settings.surroundings source file machine')
    (pace : Pace) :
    t.processOn machine source file settings pace =
      t.processOn machine' source file settings pace := by
  unfold Settings.surroundings at h
  unfold processOn contextOn
  cases hoptions : settings.options with
  | error fault => rfl
  | ok options =>
    show ((Registry.ofOptions options t.catalog t.supplied >>= _) >>= _) =
      ((Registry.ofOptions options t.catalog t.supplied >>= _) >>= _)
    rw [Routine.bind_assoc, Routine.bind_assoc]
    refine congrArg (Registry.ofOptions options t.catalog t.supplied >>= ·) (funext fun registry => ?_)
    cases hmap : settings.project.nameMap with
    | error fault => rfl
    | ok map =>
      rw [hoptions, hmap] at h
      replace h := Option.some.inj h
      match machine, machine', h with
      | .error _, .error _, rfl => rfl
      | .ok files, .ok files', h =>
        let cx : Context κ :=
          { file, settings, options, registry, nameMap := map, files, compilers := t.compilers, pace }
        have hparts : parts (cx.on files) (Component.parse source file) =
            parts (cx.on files') (Component.parse source file) := parts_on_congr (Except.ok.inj h)
        show (say _ >>= fun _ => say _ >>= fun _ => parts (cx.on files) _ >>= _) =
          (say _ >>= fun _ => say _ >>= fun _ => parts (cx.on files') _ >>= _)
        rw [hparts]

end SingleFileTransformer

/-! ### A component that refers to its script -/

def linkedSource : String := "<script src=\"./a.js\"></script>"

def styledSource : String := linkedSource ++ "<style module>.a \x7b color: red \x7d</style>"

def linkedFile : String := "/app/Linked.vue"

/-- A machine that holds the script with some text, and works in some directory. -/
def linkedFiles (directory text : String) : Files where
  directory
  entries := [⟨["app".toList, "a.js".toList], text.toUTF8, false⟩]

/-- Of the component with a style the text of its script is read, and nothing for the style. -/
theorem surroundings_styledSource (files : Files) :
    markedSettings.surroundings styledSource linkedFile (.ok files) =
      some (.ok ⟨some (files.read "/app/a.js"), none, [⟨none, none, none⟩]⟩) := by
  have hsettings : (markedSettings.options.toOption.isSome &&
      markedSettings.project.nameMap.toOption.isSome) = true := by
    decide +kernel
  have hparse : ((Component.parse styledSource linkedFile).setupScript.isNone &&
      (Component.parse styledSource linkedFile).template.isNone) = true := by
    decide +kernel
  have hscript : (Component.parse styledSource linkedFile).script.map (·.src) =
      some (some "./a.js") := by
    decide +kernel
  have hstyles : (Component.parse styledSource linkedFile).moduleStyles.map
      (fun style => (style.src, style.lang)) = [(none, none)] := by
    decide +kernel
  have hpath : Path.relativeTo linkedFile "./a.js" = "/app/a.js" := by decide +kernel
  simp only [Bool.and_eq_true, Option.isSome_iff_exists, Option.isNone_iff_eq_none] at hsettings hparse
  obtain ⟨⟨options, hoptions⟩, map, hmap⟩ := hsettings
  obtain ⟨block, hblock, hsrc⟩ := Option.map_eq_some_iff.1 hscript
  obtain ⟨style, hstyle, hnone⟩ := List.map_eq_singleton_iff.1 hstyles
  obtain ⟨hreference, hlang⟩ := Prod.mk.inj hnone
  have hread : Stage.referenceText files linkedFile block.toBlock = some (files.read "/app/a.js") := by
    unfold Stage.referenceText
    rw [hsrc, Option.map_some, hpath]
  have hplain : Stage.styleSurroundings options map files linkedFile style = ⟨none, none, none⟩ := by
    unfold Stage.styleSurroundings Stage.asksImports Stage.usesDirectory
    rw [hreference, hlang]
    simp [Stage.hasImports]
  unfold Settings.surroundings Component.surroundings
  rw [hoptions, hmap, hparse.1, hparse.2, hblock, hstyle]
  show some (Except.ok (Surroundings.mk (Stage.referenceText files linkedFile block.toBlock) none
    [Stage.styleSurroundings options map files linkedFile style])) = _
  rw [hread, hplain]

/-- On two machines that work in different directories a component comes out alike where its script
holds one text. -/
theorem process_congr_styledSource :
    markedSettings.surroundings styledSource linkedFile (.ok (linkedFiles "/" "1")) =
        markedSettings.surroundings styledSource linkedFile (.ok (linkedFiles "/app" "1")) ∧
      plainTransformer.processOn (.ok (linkedFiles "/" "1")) styledSource linkedFile markedSettings
          .blocking =
        plainTransformer.processOn (.ok (linkedFiles "/app" "1")) styledSource linkedFile
          markedSettings .blocking :=
  have hread : (linkedFiles "/" "1").read "/app/a.js" = (linkedFiles "/app" "1").read "/app/a.js" := by
    decide +kernel
  have hsurroundings :
      markedSettings.surroundings styledSource linkedFile (.ok (linkedFiles "/" "1")) =
        markedSettings.surroundings styledSource linkedFile (.ok (linkedFiles "/app" "1")) := by
    rw [surroundings_styledSource, surroundings_styledSource, hread]
  ⟨hsurroundings, SingleFileTransformer.process_congr plainTransformer hsurroundings .blocking⟩

/-- What comes of the component on a machine. -/
def linkedResult (files : Files) : Except TransformFault Output :=
  ((plainTransformer.process files linkedSource linkedFile markedSettings .blocking).run ⟨[], ()⟩).1

/-- With one text, one name and one configuration, and so with one key, a component comes out
differently where its script holds another text. -/
theorem not_linkedResult_eq : ¬ ∀ files files' : Files, linkedResult files = linkedResult files' := by
  intro h
  have hone : (linkedResult (linkedFiles "/" "1")).toOption.any
      (fun output => output.code.toList.contains '1') = true := by
    decide +kernel
  have htwo : (linkedResult (linkedFiles "/" "2")).toOption.any
      (fun output => output.code.toList.contains '1') = false := by
    decide +kernel
  rw [h (linkedFiles "/" "1") (linkedFiles "/" "2"), htwo] at hone
  exact absurd hone Bool.false_ne_true

end SingleFile
