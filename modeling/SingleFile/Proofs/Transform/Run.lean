import SingleFile.Transform

/-!
# What a transformation that succeeds has done

`Routine.run_bind_eq_ok` takes a run apart at its steps.  `process_cases` says what a transformation
that succeeds has done, and `parts_stages`, `parts_cases`, `plainBody_cases` and `compileScript_cases`
say so of its stages; `render_cases` says what a template becomes.
-/

namespace SingleFile

theorem exists_ok_of_any {ε α : Type} {e : Except ε α} {p : α → Bool}
    (h : e.toOption.any p = true) : ∃ a, e = .ok a ∧ p a = true := by
  cases e with
  | error fault => cases h
  | ok a => exact ⟨a, rfl, h⟩

namespace Routine

variable {σ ε ε' α β : Type} {s s' : σ}

theorem run_bind (p : Routine σ ε α) (f : α → Routine σ ε β) (s : σ) :
    (p >>= f).run s = match p.run s with
      | (.ok a, s₁) => (f a).run s₁
      | (.error e, s₁) => (.error e, s₁) := by
  show (bind f p).run s = _
  induction p generalizing s with
  | done a => rfl
  | fail e => rfl
  | read next ih => exact ih s s
  | write t next ih => exact ih t
  | wait next ih => exact ih s

/-- A run of two steps that succeeds is a run of each. -/
theorem run_bind_eq_ok {p : Routine σ ε α} {f : α → Routine σ ε β} {b : β}
    (h : (p >>= f).run s = (.ok b, s')) :
    ∃ a s₁, p.run s = (.ok a, s₁) ∧ (f a).run s₁ = (.ok b, s') := by
  rw [run_bind] at h
  rcases hp : p.run s with ⟨e | a, s₁⟩
  · rw [hp] at h
    simp at h
  · rw [hp] at h
    exact ⟨a, s₁, rfl, h⟩

theorem run_mapError {f : ε → ε'} (p : Routine σ ε α) (s : σ) :
    (p.mapError f).run s = ((p.run s).1.mapError f, (p.run s).2) := by
  induction p generalizing s with
  | done a => rfl
  | fail e => rfl
  | read next ih => exact ih s s
  | write t next ih => exact ih t
  | wait next ih => exact ih s

theorem run_mapError_eq_ok {p : Routine σ ε α} {f : ε → ε'} {a : α}
    (h : (p.mapError f).run s = (.ok a, s')) : p.run s = (.ok a, s') := by
  rw [run_mapError] at h
  rcases hp : p.run s with ⟨e | b, s₁⟩
  · rw [hp] at h
    cases h
  · rw [hp] at h
    cases h
    rfl

theorem run_outcome (p : Routine σ ε α) (s : σ) :
    (p.outcome : Routine σ ε' (Except ε α)).run s = (.ok (p.run s).1, (p.run s).2) := by
  induction p generalizing s with
  | done a => rfl
  | fail e => rfl
  | read next ih => exact ih s s
  | write t next ih => exact ih t
  | wait next ih => exact ih s

theorem exists_run_of_any {r : Routine σ ε α} {p : α → Bool}
    (h : (r.run s).1.toOption.any p = true) : ∃ a s', r.run s = (.ok a, s') ∧ p a = true := by
  rcases hr : r.run s with ⟨e, s'⟩
  rw [hr] at h
  obtain ⟨a, rfl, ha⟩ := exists_ok_of_any h
  exact ⟨a, s', rfl, ha⟩

theorem run_done_eq_ok {a b : α} (h : (done a : Routine σ ε α).run s = (.ok b, s')) : a = b :=
  Except.ok.inj (Prod.ext_iff.1 h).1

end Routine

open Routine

variable {κ : Type}

/-! ### Scripts -/

namespace Stage

variable {cx : Context κ} {s s' : Session κ}

/-- The compiler of scripts that comes with the library takes a language. -/
def BuiltIn (cx : Context κ) (lang : Option String) : Prop :=
  cx.registry.find? (lang.getD scriptLang) = none ∧
    if isTyped (lang.getD scriptLang) then cx.compilers.typeScript = some Compiler.script
    else cx.compilers.script = Compiler.script

/-- The module syntax of a project. -/
def moduleFormat (settings : Settings) : Script.ModuleFormat :=
  if settings.esm then .ecmaScript else .commonJS

theorem compilerFor_cases {lang : String} {compiler : Compiler κ ScriptRequest Fragment}
    (h : (compilerFor cx lang).run s = (.ok compiler, s')) :
    if isTyped lang then cx.compilers.typeScript = some compiler
    else cx.compilers.script = compiler := by
  unfold compilerFor at h
  split at h
  · next htyped =>
    rw [if_pos htyped]
    obtain ⟨-, s₁, -, h⟩ := run_bind_eq_ok h
    split at h
    · next compiler' hcompiler => rw [hcompiler, run_done_eq_ok h]
    · simp [run, throw, throwThe, MonadExceptOf.throw] at h
  · next htyped =>
    rw [if_neg htyped]
    exact run_done_eq_ok h

theorem run_script {pace : Pace} {source file : String} {lang : Option String} {settings : Settings}
    {made : Fragment}
    (h : (Compiler.script.compile pace ⟨source, file, lang, settings⟩).run s = (.ok made, s')) :
    Script.compile (moduleFormat settings) file source = .ok made := by
  have hpace : (Compiler.script.compile pace ⟨source, file, lang, settings⟩ : Work κ Fragment) =
      Compiler.script.compile .blocking ⟨source, file, lang, settings⟩ := by
    cases pace <;> rfl
  rw [hpace] at h
  dsimp only [Compiler.compile, Compiler.script, Compiler.ofBlocking] at h
  unfold moduleFormat
  split at h
  · next hcompile => rw [hcompile, run_done_eq_ok h]
  · simp [run] at h

/-- A script of a language that the compiler of the library takes is compiled by that one. -/
theorem compileScript_cases {source : String} {lang : Option String} {made : Fragment}
    (hlang : BuiltIn cx lang) (h : (compileScript cx source lang).run s = (.ok made, s')) :
    Script.compile (moduleFormat cx.settings) cx.file source = .ok made := by
  obtain ⟨hregistry, hcompiler⟩ := hlang
  unfold compileScript at h
  simp only [hregistry] at h
  obtain ⟨compiler, s₁, hfor, h⟩ := run_bind_eq_ok h
  have heq : compiler = Compiler.script := by
    have hcases := compilerFor_cases hfor
    split at hcompiler
    · next htyped =>
      rw [if_pos htyped, hcompiler] at hcases
      exact (Option.some.inj hcases).symm
    · next htyped =>
      rw [if_neg htyped, hcompiler] at hcases
      exact hcases.symm
  subst heq
  rw [Context.compile, Work.act] at h
  exact run_script (run_mapError_eq_ok h)

/-- What a plain script becomes, from its content or from the file that it refers to. -/
theorem plainBody_cases {block : ScriptBlock} {f : Fragment}
    (h : (plainBody cx block).run s = (.ok f, s')) :
    ∃ content made s₁ s₂, (compileScript cx content block.lang).run s₁ = (.ok made, s₂) ∧
      f.code = withoutMapComment made.code ∧
      match block.src with
      | none => content = block.content ∧ f.map = SourceMap.merge? block.map made.map
      | some src => ∃ s₀, (load cx.files src cx.file).run s₀ = (.ok content, s₁) := by
  unfold plainBody at h
  split at h
  · next src hsrc =>
    obtain ⟨content, s₁, hload, h⟩ := run_bind_eq_ok h
    obtain ⟨made, s₂, hmade, h⟩ := run_bind_eq_ok h
    obtain rfl := run_done_eq_ok h
    refine ⟨content, made, s₁, s₂, hmade, rfl, ?_⟩
    rw [hsrc]
    exact ⟨s, hload⟩
  · next hsrc =>
    obtain ⟨made, s₁, hmade, h⟩ := run_bind_eq_ok h
    obtain rfl := run_done_eq_ok h
    refine ⟨block.content, made, s, s₁, hmade, rfl, ?_⟩
    rw [hsrc]
    exact ⟨rfl, rfl⟩

/-- What is loaded is the text of the file that is referred to. -/
theorem read_of_load {files : Files} {src file text : String}
    (h : (load files src file : Action κ String).run s = (.ok text, s')) :
    files.read (Path.relativeTo file src) = .ok text := by
  unfold load at h
  obtain ⟨-, s₁, -, h⟩ := run_bind_eq_ok h
  unfold readReference at h
  split at h
  · next hread => rw [hread, run_done_eq_ok h]
  · simp [run] at h

/-- What is left to do for a template when its content is known. -/
def renderContent (cx : Context κ) (template : TemplateBlock) (bindings : Option Json)
    (content : String) : Action κ Fragment := do
  let some compiler := cx.compilers.template | throw (.settings (.noTemplateCompiler cx.file))
  let made ← cx.compile compiler (templateRequest cx template content bindings)
  stopAt made.errors
  return ⟨withoutMapComment made.code, made.map⟩

theorem renderContent_cases {template : TemplateBlock} {bindings : Option Json} {content : String}
    {f : Fragment} (h : (renderContent cx template bindings content).run s = (.ok f, s')) :
    ∃ compiler made s₁, cx.compilers.template = some compiler ∧
      (cx.compile compiler (templateRequest cx template content bindings)).run s = (.ok made, s₁) ∧
      f = ⟨withoutMapComment made.code, made.map⟩ := by
  unfold renderContent at h
  split at h
  · next compiler hcompiler =>
    obtain ⟨made, s₁, hmade, h⟩ := run_bind_eq_ok h
    obtain ⟨-, s₂, -, h⟩ := run_bind_eq_ok h
    exact ⟨compiler, made, s₁, hcompiler, hmade, (run_done_eq_ok h).symm⟩
  · simp [run, throw, throwThe, MonadExceptOf.throw] at h

/-- What a template becomes, from its content or from the file that it refers to. -/
theorem render_content_cases {template : TemplateBlock} {bindings : Option Json} {f : Fragment}
    (h : (render cx template bindings).run s = (.ok f, s')) :
    ∃ compiler content made s₁ s₂, cx.compilers.template = some compiler ∧
      (cx.compile compiler (templateRequest cx template content bindings)).run s₁ =
        (.ok made, s₂) ∧
      f = ⟨withoutMapComment made.code, made.map⟩ ∧
      match template.src with
      | none => content = template.content
      | some src => ∃ s₀, (load cx.files src cx.file).run s₀ = (.ok content, s₁) := by
  unfold render at h
  dsimp only at h
  split at h
  · next src hsrc =>
    obtain ⟨content, s₁, hload, h⟩ := run_bind_eq_ok h
    obtain ⟨compiler, made, s₂, hcompiler, hmade, hf⟩ := renderContent_cases h
    refine ⟨compiler, content, made, s₁, s₂, hcompiler, hmade, hf, ?_⟩
    rw [hsrc]
    exact ⟨s, hload⟩
  · next hsrc =>
    obtain ⟨content, s₁, hpure, h⟩ := run_bind_eq_ok h
    obtain ⟨compiler, made, s₂, hcompiler, hmade, hf⟩ := renderContent_cases h
    refine ⟨compiler, content, made, s₁, s₂, hcompiler, hmade, hf, ?_⟩
    rw [hsrc]
    exact (run_done_eq_ok hpure).symm

/-- What a template becomes. -/
theorem render_cases {template : TemplateBlock} {bindings : Option Json} {f : Fragment}
    (h : (render cx template bindings).run s = (.ok f, s')) :
    ∃ compiler content made s₁ s₂, cx.compilers.template = some compiler ∧
      (cx.compile compiler (templateRequest cx template content bindings)).run s₁ =
        (.ok made, s₂) ∧
      f = ⟨withoutMapComment made.code, made.map⟩ := by
  obtain ⟨compiler, content, made, s₁, s₂, hcompiler, hmade, hf, -⟩ := render_content_cases h
  exact ⟨compiler, content, made, s₁, s₂, hcompiler, hmade, hf⟩

end Stage

/-! ### Modules -/

namespace SingleFileTransformer

variable {t : SingleFileTransformer κ} {files : Files} {source file : String} {settings : Settings}
  {pace : Pace} {s s' : Session κ}

theorem context_cases {cx : Context κ}
    (h : (t.context files file settings pace).run s = (.ok cx, s')) :
    cx.files = files ∧ cx.file = file ∧ cx.settings = settings ∧ cx.compilers = t.compilers := by
  unfold context contextOn at h
  obtain ⟨options, s₁, -, h⟩ := run_bind_eq_ok h
  obtain ⟨registry, s₂, -, h⟩ := run_bind_eq_ok h
  obtain ⟨nameMap, s₃, -, h⟩ := run_bind_eq_ok h
  obtain rfl := run_done_eq_ok h
  exact ⟨rfl, rfl, rfl, rfl⟩

/-- A transformation succeeds only on a machine whose working directory can be told. -/
theorem exists_files_of_processOn {machine : Machine} {output : Output}
    (h : (t.processOn machine source file settings pace).run s = (.ok output, s')) :
    ∃ files, machine = .ok files ∧
      (t.process files source file settings pace).run s = (.ok output, s') := by
  cases machine with
  | ok files => exact ⟨files, rfl, h⟩
  | error cause =>
    unfold processOn contextOn at h
    obtain ⟨cx, s₁, hcx, -⟩ := run_bind_eq_ok h
    obtain ⟨options, s₂, -, hcx⟩ := run_bind_eq_ok hcx
    obtain ⟨registry, s₃, -, hcx⟩ := run_bind_eq_ok hcx
    obtain ⟨nameMap, s₄, -, hcx⟩ := run_bind_eq_ok hcx
    obtain ⟨files, s₅, hfiles, -⟩ := run_bind_eq_ok hcx
    cases hfiles

/-- What the parts of a module are: its body, what the template becomes, and whether it is functional. -/
theorem parts_stages {cx : Context κ} {component : Component} {a : Assembly}
    (h : (parts cx component).run s = (.ok a, s')) :
    ∃ script bindings s₁, (Stage.body cx component).run s = (.ok (script, bindings), s₁) ∧
      a.filename = cx.file ∧ a.isFunctional = component.isFunctional ∧ a.script = script ∧
      match component.template with
      | none => a.template = none
      | some template => ∃ f s₂ s₃, (Stage.render cx template bindings).run s₂ = (.ok f, s₃) ∧
          a.template = some f := by
  unfold parts at h
  obtain ⟨⟨script, bindings⟩, s₁, hbody, h⟩ := run_bind_eq_ok h
  have hrest {template : Option Fragment} {s₁ : Session κ}
      (h : (do
        let styles ← Stage.styleResults cx component.moduleStyles
        let custom ← Stage.customCode cx component.customBlocks
        pure {
          filename := cx.file, esm := cx.settings.esm, isFunctional := component.isFunctional
          script, template, styles, custom } : Action κ Assembly).run s₁ = (.ok a, s')) :
      a.filename = cx.file ∧ a.isFunctional = component.isFunctional ∧ a.script = script ∧
        a.template = template := by
    obtain ⟨styles, s₄, -, h⟩ := run_bind_eq_ok h
    obtain ⟨custom, s₅, -, h⟩ := run_bind_eq_ok h
    obtain rfl := run_done_eq_ok h
    exact ⟨rfl, rfl, rfl, rfl⟩
  refine ⟨script, bindings, s₁, hbody, ?_⟩
  cases htemplate : component.template with
  | none =>
    simp only [htemplate] at h
    obtain ⟨template, s₃, hnone, h⟩ := run_bind_eq_ok h
    obtain ⟨hfile, hfunctional, hscript, ha⟩ := hrest h
    exact ⟨hfile, hfunctional, hscript, ha.trans (run_done_eq_ok hnone).symm⟩
  | some tpl =>
    simp only [htemplate] at h
    obtain ⟨f, s₃, hrender, h⟩ := run_bind_eq_ok h
    obtain ⟨template, s₄, hsome, h⟩ := run_bind_eq_ok h
    obtain ⟨hfile, hfunctional, hscript, ha⟩ := hrest h
    exact ⟨hfile, hfunctional, hscript, f, _, s₃, hrender, ha.trans (run_done_eq_ok hsome).symm⟩

/-- What the parts of a module are: its body, and what the template becomes. -/
theorem parts_cases {cx : Context κ} {component : Component} {a : Assembly}
    (h : (parts cx component).run s = (.ok a, s')) :
    ∃ script bindings s₁, (Stage.body cx component).run s = (.ok (script, bindings), s₁) ∧
      a.filename = cx.file ∧ a.script = script ∧
      match component.template with
      | none => a.template = none
      | some template => ∃ f s₂ s₃, (Stage.render cx template bindings).run s₂ = (.ok f, s₃) ∧
          a.template = some f := by
  obtain ⟨script, bindings, s₁, hbody, hfile, -, hrest⟩ := parts_stages h
  exact ⟨script, bindings, s₁, hbody, hfile, hrest⟩

/-- What the parts of a module are where a plain script makes its body. -/
theorem parts_plain_cases {cx : Context κ} {component : Component} {block : ScriptBlock}
    {a : Assembly} (hsetup : component.setupScript = none) (hscript : component.script = some block)
    (h : (parts cx component).run s = (.ok a, s')) :
    ∃ body s₁, (Stage.plainBody cx block).run s = (.ok body, s₁) ∧
      a.filename = cx.file ∧ a.script = some body ∧
      match component.template with
      | none => a.template = none
      | some template => ∃ f s₂ s₃, (Stage.render cx template none).run s₂ = (.ok f, s₃) ∧
          a.template = some f := by
  obtain ⟨script, bindings, s₁, hbody, hrest⟩ := parts_cases h
  unfold Stage.body at hbody
  rw [hsetup, hscript] at hbody
  obtain ⟨body, s₂, hplain, hbody⟩ := run_bind_eq_ok hbody
  obtain ⟨rfl, rfl⟩ := Prod.mk.inj (run_done_eq_ok hbody)
  exact ⟨body, s₂, hplain, hrest⟩

/-- What a transformation that succeeds has done. -/
theorem process_cases {output : Output}
    (h : (t.process files source file settings pace).run s = (.ok output, s')) :
    ∃ cx a s₁ s₂ s₃, (t.context files file settings pace).run s = (.ok cx, s₁) ∧
      (parts cx (Component.parse source file)).run s₂ = (.ok a, s₃) ∧ a.assemble.1 = output := by
  unfold process processOn at h
  obtain ⟨cx, s₁, hcx, h⟩ := run_bind_eq_ok h
  obtain ⟨-, s₂, -, h⟩ := run_bind_eq_ok h
  obtain ⟨-, s₃, -, h⟩ := run_bind_eq_ok h
  obtain ⟨a, s₄, ha, h⟩ := run_bind_eq_ok h
  obtain ⟨-, s₅, -, h⟩ := run_bind_eq_ok h
  exact ⟨cx, a, s₁, s₃, s₄, hcx, ha, run_done_eq_ok h⟩

/-- What a module is made of where its body is a plain script that the compiler of the library takes. -/
theorem process_plain_cases {output : Output} {cx : Context κ} {block : ScriptBlock} {s₁ : Session κ}
    (hrun : (t.process files source file settings pace).run s = (.ok output, s'))
    (hcx : (t.context files file settings pace).run s = (.ok cx, s₁))
    (hscript : (Component.parse source file).script = some block)
    (hsetup : (Component.parse source file).setupScript = none)
    (hlang : Stage.BuiltIn cx block.lang) :
    ∃ (a : Assembly) (body : Fragment) (content : String) (made : Fragment),
      a.assemble.1 = output ∧ a.script = some body ∧
      Script.compile (Stage.moduleFormat settings) file content = .ok made ∧
      body.code = withoutMapComment made.code ∧
      (match block.src with
        | none => content = block.content ∧ body.map = SourceMap.merge? block.map made.map
        | some src => ∃ s₂ s₃ : Session κ,
            (Stage.load files src file).run s₂ = (.ok content, s₃)) ∧
      match (Component.parse source file).template with
      | none => a.template = none
      | some template => ∃ f s₂ s₃, (Stage.render cx template none).run s₂ = (.ok f, s₃) ∧
          a.template = some f := by
  obtain ⟨cx', a, s₂, s₃, s₄, hcx', hparts, houtput⟩ := process_cases hrun
  obtain rfl : cx = cx' := Except.ok.inj (Prod.ext_iff.1 (hcx.symm.trans hcx')).1
  obtain ⟨hfiles, hfile, hsettings, -⟩ := context_cases hcx
  obtain ⟨body, s₅, hbody, -, hascript, hatemplate⟩ := parts_plain_cases hsetup hscript hparts
  obtain ⟨content, made, s₆, s₇, hcompile, hcode, hcontent⟩ := Stage.plainBody_cases hbody
  have hmade := Stage.compileScript_cases hlang hcompile
  rw [hfile, hsettings] at hmade
  rw [hfiles, hfile] at hcontent
  refine ⟨a, body, content, made, houtput, hascript, hmade, hcode, ?_, hatemplate⟩
  cases hsrc : block.src with
  | none =>
    rw [hsrc] at hcontent
    exact hcontent
  | some src =>
    rw [hsrc] at hcontent
    obtain ⟨s₀, hload⟩ := hcontent
    exact ⟨s₀, s₆, hload⟩

end SingleFileTransformer

end SingleFile
