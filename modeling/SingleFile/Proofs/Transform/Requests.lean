import SingleFile.Compiling.Bridge
import SingleFile.Proofs.Json.Keys
import SingleFile.Proofs.Routine.Outcome
import SingleFile.Proofs.Transform.Surroundings

/-!
# What compilers are asked

`Context.Asks` lists the requests that the stages make of a component, and `process_onlyAsks` says that
there are no others.  Nothing but what a compiler does with a request tells that it has been asked.  So
`SingleFileTransformer.OnlyAsks` looks at other compilers: where they do the same with some requests,
the transformation is the same, in all its steps.
-/

namespace SingleFile

variable {κ : Type}

inductive Request where
  | script (r : ScriptRequest)
  | setup (r : SetupRequest)
  | template (r : TemplateRequest)
  | style (r : StyleRequest)

namespace Request

def kind : Request → RequestKind
  | script _ => .script
  | setup _ => .setup
  | template _ => .template
  | style _ => .style

def payload : Request → Json
  | script r => r.toJson
  | setup r => r.toJson
  | template r => r.toJson
  | style r => r.toJson

/-- What a command gets to read. -/
def document (r : Request) : Json := .object [("kind", .string r.kind.tag), ("payload", r.payload)]

theorem envelope_eq_compact (r : Request) :
    Bridge.envelope r.kind r.payload = r.document.compact := rfl

end Request

def Compiler.AgreeOn {ρ α : Type} (P : ρ → Prop) (c c' : Compiler κ ρ α) : Prop :=
  ∀ pace r, P r → c.compile pace r = c'.compile pace r

structure Compilers.AgreeOn (P : Request → Prop) (c c' : Compilers κ) : Prop where
  script : c.script.AgreeOn (fun r => P (.script r)) c'.script
  typeScript : Option.Rel (Compiler.AgreeOn fun r => P (.script r)) c.typeScript c'.typeScript
  setup : Option.Rel (Compiler.AgreeOn fun r => P (.setup r)) c.setup c'.setup
  template : Option.Rel (Compiler.AgreeOn fun r => P (.template r)) c.template c'.template
  style : c.style.AgreeOn (fun r => P (.style r)) c'.style

theorem Compilers.AgreeOn.mono {P Q : Request → Prop} {c c' : Compilers κ} (h : c.AgreeOn Q c')
    (hPQ : ∀ r, P r → Q r) : c.AgreeOn P c' := by
  have hrel {ρ α : Type} {f : ρ → Request} {o o' : Option (Compiler κ ρ α)}
      (h : Option.Rel (Compiler.AgreeOn fun r => Q (f r)) o o') :
      Option.Rel (Compiler.AgreeOn fun r => P (f r)) o o' := by
    cases h with
    | some h => exact .some fun pace r hr => h pace r (hPQ _ hr)
    | none => exact .none
  exact {
    script := fun pace r hr => h.script pace r (hPQ _ hr)
    typeScript := hrel h.typeScript
    setup := hrel h.setup
    template := hrel h.template
    style := fun pace r hr => h.style pace r (hPQ _ hr) }

namespace SingleFileTransformer

def asking (t : SingleFileTransformer κ) (compilers : Compilers κ) : SingleFileTransformer κ :=
  { t with compilers }

/-- Whether a transformation asks nothing but some requests. -/
def OnlyAsks (t : SingleFileTransformer κ) (P : Request → Prop) (files : Files) (source file : String)
    (settings : Settings) (pace : Pace) : Prop :=
  ∀ compilers, t.compilers.AgreeOn P compilers →
    (t.asking compilers).process files source file settings pace =
      t.process files source file settings pace

end SingleFileTransformer

/-! ### The requests of the stages -/

namespace Context

def asking (cx : Context κ) (compilers : Compilers κ) : Context κ := { cx with compilers }

inductive Asks (cx : Context κ) (component : Component) : Request → Prop where
  | script (source : String) (lang : Option String) :
      Asks cx component (.script ⟨source, cx.file, lang, cx.settings⟩)
  | setup : Asks cx component
      (.setup ⟨component, { id := cx.file, extra := cx.options.compilerOptions }⟩)
  | template (template : TemplateBlock) (content : String) {bindings : Option Json}
      (h : ∀ b ∈ bindings, b.UniqueKeys) :
      Asks cx component (.template (Stage.templateRequest cx template content bindings))
  | style (content file : String) (lang : Option String) :
      Asks cx component (.style (Stage.styleRequest cx content file lang))

end Context

/-- Whether the names that a compiler of setup scripts gives are an object that has no key twice. -/
def Compiler.GivesUniqueKeys {ρ : Type} (c : Compiler κ ρ SetupOutput) : Prop :=
  ∀ pace r, (c.compile pace r).Yields fun made => ∀ b ∈ made.bindings, b.UniqueKeys

namespace Stage

variable {cx : Context κ} {component : Component} {compilers : Compilers κ}

theorem compile_asking {ρ α : Type} {P : ρ → Prop} {c c' : Compiler κ ρ α} (h : c.AgreeOn P c')
    {r : ρ} (hr : P r) : (cx.asking compilers).compile c' r = cx.compile c r :=
  congrArg Work.act (h cx.pace r hr).symm

theorem compileScript_asking (h : cx.compilers.AgreeOn (cx.Asks component) compilers)
    (source : String) (lang : Option String) :
    compileScript (cx.asking compilers) source lang = compileScript cx source lang := by
  have hasks : cx.Asks component (.script ⟨source, cx.file, lang, cx.settings⟩) := .script source lang
  unfold compileScript
  dsimp only [Context.asking]
  cases cx.registry.find? (lang.getD scriptLang) with
  | some t => rfl
  | none =>
    dsimp only
    unfold compilerFor
    dsimp only
    split
    · have htyped := h.typeScript
      generalize cx.compilers.typeScript = c at htyped
      generalize compilers.typeScript = c' at htyped
      cases htyped with
      | none => rfl
      | some htyped =>
        rw [Routine.bind_assoc, Routine.bind_assoc]
        refine congrArg (Routine.log _ >>= ·) (funext fun _ => ?_)
        exact compile_asking htyped hasks
    · exact compile_asking h.script hasks

theorem plainBody_asking (h : cx.compilers.AgreeOn (cx.Asks component) compilers)
    (block : ScriptBlock) : plainBody (cx.asking compilers) block = plainBody cx block := by
  unfold plainBody
  simp only [compileScript_asking h]
  rfl

theorem setupBody_asking (h : cx.compilers.AgreeOn (cx.Asks component) compilers)
    (block : ScriptBlock) :
    setupBody (cx.asking compilers) component block = setupBody cx component block := by
  unfold setupBody
  simp only [compileScript_asking h]
  dsimp only [Context.asking]
  have hsetup := h.setup
  generalize cx.compilers.setup = c at hsetup
  generalize compilers.setup = c' at hsetup
  cases hsetup with
  | none => rfl
  | some hsetup => exact congrArg (· >>= _) (compile_asking hsetup .setup)

theorem body_asking (h : cx.compilers.AgreeOn (cx.Asks component) compilers) :
    body (cx.asking compilers) component = body cx component := by
  unfold body
  simp only [plainBody_asking h, setupBody_asking h]

theorem render_asking (h : cx.compilers.AgreeOn (cx.Asks component) compilers)
    (template : TemplateBlock) {bindings : Option Json} (hbindings : ∀ b ∈ bindings, b.UniqueKeys) :
    render (cx.asking compilers) template bindings = render cx template bindings := by
  have hcontent (content : String) :
      renderContent (cx.asking compilers) template bindings content =
        renderContent cx template bindings content := by
    unfold renderContent
    dsimp only [Context.asking]
    have htemplate := h.template
    generalize cx.compilers.template = c at htemplate
    generalize compilers.template = c' at htemplate
    cases htemplate with
    | none => rfl
    | some htemplate =>
      exact congrArg (· >>= _) (compile_asking htemplate (.template template content hbindings))
  unfold render
  cases template.src with
  | some src => exact congrArg (load cx.files src cx.file >>= ·) (funext hcontent)
  | none => exact hcontent template.content

/-! ### Styles -/

theorem compileStyle_asking (h : cx.compilers.AgreeOn (cx.Asks component) compilers)
    (content file : String) (lang : Option String) :
    compileStyle (cx.asking compilers) content file lang = compileStyle cx content file lang := by
  unfold compileStyle
  exact congrArg (· >>= _) (compile_asking h.style (.style content file lang))

theorem styleResults_asking (h : cx.compilers.AgreeOn (cx.Asks component) compilers)
    (styles : List StyleBlock) :
    styleResults (cx.asking compilers) styles = styleResults cx styles := by
  have hresult : styleResult (cx.asking compilers) = styleResult cx := by
    funext style
    unfold styleResult styleValue processStyle
    simp only [compileStyle_asking h]
    rfl
  unfold styleResults
  rw [hresult]
  rfl

/-! ### The names for the template -/

theorem yields_setupBody (h : ∀ c ∈ cx.compilers.setup, c.GivesUniqueKeys) (block : ScriptBlock) :
    (setupBody cx component block).Yields fun made => ∀ b ∈ made.2, b.UniqueKeys := by
  unfold setupBody
  cases hsetup : cx.compilers.setup with
  | none => exact Routine.yields_fail _
  | some c =>
    refine Routine.yields_bind (Routine.yields_mapError (h c hsetup cx.pace _)) fun script hscript => ?_
    refine Routine.yields_bind (Routine.yields_true _) fun made _ => ?_
    exact Routine.yields_done hscript

/-- The names that the template may use are those that the compiler of setup scripts gives. -/
theorem yields_body (h : ∀ c ∈ cx.compilers.setup, c.GivesUniqueKeys) :
    (body cx component).Yields fun made => ∀ b ∈ made.2, b.UniqueKeys := by
  have hnone {β : Type} (made : β) : ∀ b ∈ (made, (none : Option Json)).2, b.UniqueKeys :=
    fun _ hb => nomatch hb
  unfold body
  cases component.setupScript with
  | some block =>
    exact Routine.yields_bind (yields_setupBody h block) fun made hmade => Routine.yields_done hmade
  | none =>
    cases component.script with
    | some block =>
      exact Routine.yields_bind (Routine.yields_true _) fun made _ => Routine.yields_done (hnone _)
    | none => exact Routine.yields_done (hnone _)

end Stage

namespace SingleFileTransformer

theorem parts_asking {cx : Context κ} {component : Component} {compilers : Compilers κ}
    (hsetup : ∀ c ∈ cx.compilers.setup, c.GivesUniqueKeys)
    (h : cx.compilers.AgreeOn (cx.Asks component) compilers) :
    parts (cx.asking compilers) component = parts cx component := by
  unfold parts
  rw [Stage.body_asking h, Stage.styleResults_asking h]
  -- the request for the template holds names that the body has yielded
  refine (Stage.yields_body hsetup).bind_congr fun ⟨script, bindings⟩ hbindings => ?_
  cases component.template with
  | none => rfl
  | some template =>
    dsimp only
    rw [Stage.render_asking h template hbindings]
    rfl

/-- **A transformation asks what its stages ask.** -/
theorem process_onlyAsks (t : SingleFileTransformer κ)
    (hsetup : ∀ c ∈ t.compilers.setup, c.GivesUniqueKeys) (files : Files) (source file : String)
    (settings : Settings) (pace : Pace) :
    t.OnlyAsks (fun r => ∃ cx : Context κ, cx.file = file ∧ cx.settings = settings ∧
      settings.options = .ok cx.options ∧ cx.Asks (Component.parse source file) r)
      files source file settings pace := by
  intro compilers hagree
  unfold process processOn contextOn
  cases hoptions : settings.options with
  | error fault => rfl
  | ok options =>
    show ((Registry.ofOptions options t.catalog t.supplied >>= _) >>= _) =
      ((Registry.ofOptions options t.catalog t.supplied >>= _) >>= _)
    rw [Routine.bind_assoc, Routine.bind_assoc]
    refine congrArg (Registry.ofOptions options t.catalog t.supplied >>= ·) (funext fun registry => ?_)
    cases hmap : settings.project.nameMap with
    | error fault => rfl
    | ok map =>
      let cx : Context κ :=
        { file, settings, options, registry, nameMap := map, files, compilers := t.compilers, pace }
      have hparts : parts (cx.asking compilers) (Component.parse source file) =
          parts cx (Component.parse source file) :=
        parts_asking hsetup (hagree.mono fun r hr => ⟨cx, rfl, rfl, hoptions, hr⟩)
      show (say _ >>= fun _ => say _ >>= fun _ => parts (cx.asking compilers) _ >>= _) =
        (say _ >>= fun _ => say _ >>= fun _ => parts cx _ >>= _)
      rw [hparts]

end SingleFileTransformer

end SingleFile
