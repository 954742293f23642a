import SingleFile.Proofs.Assembly.Wiring
import SingleFile.Proofs.Component.Attributes
import SingleFile.Proofs.Transform.References
import SingleFile.Proofs.Transform.Template

/-!
# Which components are functional

A component is functional if its template has the attribute, or if its plain script says so in some text
(`Mentions`); the module then has the statements that mark it (`Assembly.SetsFlags`).  The text that is
looked at is what stands in the block, while the text that is compiled may stand in another file
(`Stage.body_cases`), or be what a compiler makes of the setup script.  So the marks follow what is
compiled just where the attribute is there or both texts agree (**`setsFlags_process`**), as they do
where the text that is compiled stands in the block.
-/

namespace SingleFile

/-- Whether a text has the words for a functional component, with some white space between them. -/
def Mentions (text : List Char) : Prop :=
  ∃ front gap back, text = front ++ ("functional:".toList ++ (gap ++ ("true".toList ++ back))) ∧
    ∀ c ∈ gap, isBlank c = true

theorem startsFunctional_iff {text : List Char} : startsFunctional text = true ↔
    ∃ gap back, text = "functional:".toList ++ (gap ++ ("true".toList ++ back)) ∧
      ∀ c ∈ gap, isBlank c = true := by
  unfold startsFunctional
  constructor
  · intro h
    split at h
    · next rest hrest =>
      obtain ⟨back, hback⟩ := isSome_stripPrefix?_iff.1 h
      refine ⟨rest.takeWhile isBlank, back, ?_, fun c hc => List.mem_takeWhile_imp hc⟩
      rw [stripPrefix?_eq_some_iff.1 hrest, hback]
      exact congrArg _ (List.takeWhile_append_dropWhile ..).symm
    · cases h
  · rintro ⟨gap, back, rfl, hgap⟩
    have htrim : trimStart (gap ++ ("true".toList ++ back)) = "true".toList ++ back :=
      dropWhile_append_of_head hgap (by rintro c ⟨⟩; decide)
    rw [stripPrefix?_append]
    dsimp only
    rw [htrim, stripPrefix?_append]
    rfl

theorem mentionsFunctional_iff {text : List Char} : mentionsFunctional text = true ↔ Mentions text := by
  induction text with
  | nil =>
    refine iff_of_false (by decide) ?_
    rintro ⟨front, gap, back, heq, -⟩
    simp at heq
  | cons c r ih =>
    rw [mentionsFunctional, Bool.or_eq_true, ih, startsFunctional_iff]
    constructor
    · rintro (⟨gap, back, heq, hgap⟩ | ⟨front, gap, back, heq, hgap⟩)
      · exact ⟨[], gap, back, heq, hgap⟩
      · exact ⟨c :: front, gap, back, by rw [heq, List.cons_append], hgap⟩
    · rintro ⟨front, gap, back, heq, hgap⟩
      cases front with
      | nil => exact .inl ⟨gap, back, heq, hgap⟩
      | cons d front =>
        obtain ⟨rfl, hrest⟩ := List.cons.inj heq
        exact .inr ⟨front, gap, back, hrest, hgap⟩

variable {κ : Type}

namespace Stage

open Routine

variable {cx : Context κ} {component : Component} {block : ScriptBlock} {s s' : Session κ}

/-- The text that a plain script is compiled from. -/
theorem plainBody_text {f : Fragment} (h : (plainBody cx block).run s = (.ok f, s')) :
    ∃ text made s₁ s₂, (compileScript cx text block.lang).run s₁ = (.ok made, s₂) ∧
      f.code = withoutMapComment made.code ∧
      (block.joinedOrigin cx.file).text cx.files cx.file block.content = .ok text := by
  obtain ⟨text, made, s₁, s₂, hmade, hcode, horigin⟩ := plainBody_cases h
  refine ⟨text, made, s₁, s₂, hmade, hcode, ?_⟩
  unfold Block.joinedOrigin
  cases hsrc : block.src with
  | none =>
    rw [hsrc] at horigin
    rw [horigin.1]
    rfl
  | some src =>
    rw [hsrc] at horigin
    obtain ⟨s₀, hload⟩ := horigin
    simp only [TextOrigin.text, read_of_load hload]

/-- The body of a component with a plain script is compiled from some text, which is that of the plain
script where no setup script supersedes it. -/
theorem body_cases {script : Option Fragment} {bindings : Option Json}
    (hscript : component.script = some block)
    (h : (body cx component).run s = (.ok (script, bindings), s')) :
    ∃ text lang made f s₁ s₂, (compileScript cx text lang).run s₁ = (.ok made, s₂) ∧
      script = some f ∧ f.code = withoutMapComment made.code ∧
      (component.setupScript = none →
        (block.joinedOrigin cx.file).text cx.files cx.file block.content = .ok text) := by
  unfold body at h
  cases hsetup : component.setupScript with
  | none =>
    rw [hsetup, hscript] at h
    obtain ⟨f, s₀, hplain, h⟩ := run_bind_eq_ok h
    obtain ⟨text, made, s₁, s₂, hmade, hcode, horigin⟩ := plainBody_text hplain
    obtain ⟨rfl, rfl⟩ := Prod.mk.inj (run_done_eq_ok h)
    exact ⟨text, block.lang, made, f, s₁, s₂, hmade, rfl, hcode, fun _ => horigin⟩
  | some setup =>
    rw [hsetup] at h
    obtain ⟨⟨f, found⟩, s₀, hbody, h⟩ := run_bind_eq_ok h
    obtain ⟨rfl, rfl⟩ := Prod.mk.inj (run_done_eq_ok h)
    unfold setupBody at hbody
    split at hbody
    · obtain ⟨setupScript, s₁, -, hbody⟩ := run_bind_eq_ok hbody
      obtain ⟨made, s₂, hmade, hbody⟩ := run_bind_eq_ok hbody
      obtain ⟨rfl, rfl⟩ := Prod.mk.inj (run_done_eq_ok hbody)
      exact ⟨_, _, made, _, s₁, s₂, hmade, rfl, rfl, fun hnone => nomatch hnone⟩
    · simp [run, throw, throwThe, MonadExceptOf.throw] at hbody

end Stage

namespace Component

/-- What makes a component functional: the attribute of its template, or the text in its plain script. -/
theorem isFunctional_iff {c : Component} {block : ScriptBlock} {template : TemplateBlock}
    (hscript : c.script = some block) (htemplate : c.template = some template) :
    c.isFunctional = true ↔ template.functional = true ∨ Mentions block.content.toList := by
  rw [isFunctional, hscript, htemplate, Bool.or_eq_true, Option.any_some, Option.any_some,
    mentionsFunctional_iff]

theorem functional_iff {source file : String} {template : TemplateBlock}
    (htemplate : (parse source file).template = some template) : template.functional = true ↔
      ∃ a ∈ template.attributes, equalFold a.name.toList "functional".toList = true := by
  have hflag := (forall_flags_iff.1 (readInAnyCase_parse source file).flag).1 template htemplate
  dsimp only at hflag
  rw [hflag, Attribute.has_iff]

end Component

namespace SingleFileTransformer

open Routine

variable {t : SingleFileTransformer κ} {files : Files} {source file : String} {settings : Settings}
  {pace : Pace} {s s' : Session κ} {output : Output} {block : ScriptBlock} {template : TemplateBlock}

/-- **The marks of a functional component**: where a component with a plain script and a template is
transformed, the marks stand behind the wiring just where the template has the attribute or the text in
the block of the plain script mentions it.  So they follow the text that is compiled just where the
attribute is there or both texts mention it alike.  And they are in the module just where they stand
there, if no other part brings them. -/
theorem setsFlags_process
    (hrun : (t.process files source file settings pace).run s = (.ok output, s'))
    (hscript : (Component.parse source file).script = some block)
    (htemplate : (Component.parse source file).template = some template) :
    ∃ (cx : Context κ) (a : Assembly) (f g made : Fragment) (text : String) (lang : Option String)
      (s₁ s₂ : Session κ),
      a.assemble.1 = output ∧ a.script = some f ∧ a.template = some g ∧
      (Stage.compileScript cx text lang).run s₁ = (.ok made, s₂) ∧
      f.code = withoutMapComment made.code ∧
      ((Component.parse source file).setupScript = none →
        (block.joinedOrigin file).text files file block.content = .ok text) ∧
      let hasAttribute := ∃ x ∈ template.attributes,
        equalFold x.name.toList "functional".toList = true
      (a.SetsFlags g ↔ hasAttribute ∨ Mentions block.content.toList) ∧
      ((a.SetsFlags g ↔ hasAttribute ∨ Mentions text.toList) ↔
        hasAttribute ∨ (Mentions block.content.toList ↔ Mentions text.toList)) ∧
      (¬ Assembly.flagTarget <:+: a.upToTemplate g → ¬ Assembly.flagTarget <:+: a.belowTemplate →
        (Assembly.flagLines <:+: output.code.toList ↔ a.SetsFlags g)) := by
  obtain ⟨cx, a, s₁, s₂, s₃, hcx, hparts, rfl⟩ := process_cases hrun
  obtain ⟨rfl, rfl, -, -⟩ := context_cases hcx
  obtain ⟨script, bindings, s₄, hbody, -, hfunctional, ha, hrender⟩ := parts_stages hparts
  obtain ⟨text, lang, made, f, s₅, s₆, hmade, rfl, hcode, horigin⟩ := Stage.body_cases hscript hbody
  rw [htemplate] at hrender
  obtain ⟨g, s₇, s₈, -, hg⟩ := hrender
  have hflags : a.SetsFlags g ↔ template.functional = true ∨ Mentions block.content.toList := by
    rw [Assembly.setsFlags_iff hg, hfunctional, Component.isFunctional_iff hscript htemplate]
  rw [Component.functional_iff htemplate] at hflags
  refine ⟨cx, a, f, g, made, text, lang, s₅, s₆, rfl, ha, hg, hmade, hcode, horigin, hflags, ?_,
    Assembly.flagLines_infix_iff hg⟩
  rw [hflags]
  by_cases hattribute : ∃ x ∈ template.attributes,
      equalFold x.name.toList "functional".toList = true
  · simp only [hattribute, true_or]
  · simp only [hattribute, false_or]

end SingleFileTransformer

/-! ### Two components with the same script -/

/-- A script of a functional component, with a wide space between the words. -/
def functionalScript : String := "export default \x7b functional: \u2003true \x7d"

def functionalSource : String :=
  "<template><p/></template><script>" ++ functionalScript ++ "</script>"

/-- A component that refers to the script. -/
def referringSource : String := "<template><p/></template><script src=\"./f.js\"></script>"

def referringFile : String := "/app/Referring.vue"

def referringFiles : Files where
  entries := [⟨["app".toList, "f.js".toList], functionalScript.toUTF8, false⟩]

theorem setsFlags_process_functionalSource : ∃ output block template,
    ((mirrorTransformer.process {} functionalSource referringFile {} .blocking).run ⟨[], ()⟩).1 =
      .ok output ∧
    (Component.parse functionalSource referringFile).script = some block ∧
    (Component.parse functionalSource referringFile).template = some template ∧
    ∃ (a : Assembly) (g : Fragment), a.assemble.1 = output ∧ a.template = some g ∧ a.SetsFlags g := by
  have hrun : ((mirrorTransformer.process {} functionalSource referringFile {} .blocking).run
      ⟨[], ()⟩).1.toOption.any (fun _ => true) = true := by
    decide +kernel
  have hscript : (Component.parse functionalSource referringFile).script.any
      (fun block => mentionsFunctional block.content.toList) = true := by
    decide +kernel
  have htemplate : (Component.parse functionalSource referringFile).template.isSome = true := by
    decide +kernel
  obtain ⟨output, s', hrun, -⟩ := Routine.exists_run_of_any hrun
  obtain ⟨block, hblock, hmentions⟩ := (Option.any_eq_true _ _).1 hscript
  obtain ⟨template, htemplate⟩ := Option.isSome_iff_exists.1 htemplate
  obtain ⟨cx, a, f, g, made, text, lang, s₁, s₂, houtput, -, hg, -, -, -, hflags, -⟩ :=
    SingleFileTransformer.setsFlags_process hrun hblock htemplate
  exact ⟨output, block, template, congrArg Prod.fst hrun, hblock, htemplate, a, g, houtput, hg,
    hflags.2 (.inr (mentionsFunctional_iff.1 hmentions))⟩

/-- With the script in a file of its own, the same text is compiled and no mark is set. -/
theorem not_infix_referringSource : ∃ output block template,
    ((mirrorTransformer.process referringFiles referringSource referringFile markedSettings
      .blocking).run ⟨[], ()⟩).1 = .ok output ∧
    (Component.parse referringSource referringFile).setupScript = none ∧
    (Component.parse referringSource referringFile).script = some block ∧
    (Component.parse referringSource referringFile).template = some template ∧
    (block.joinedOrigin referringFile).text referringFiles referringFile block.content =
      .ok functionalScript ∧
    Mentions functionalScript.toList ∧ ¬ Assembly.flagTarget <:+: output.code.toList := by
  have hrun : ((mirrorTransformer.process referringFiles referringSource referringFile markedSettings
      .blocking).run ⟨[], ()⟩).1.toOption.any (fun output =>
        (splitFirst? Assembly.flagTarget output.code.toList).isNone) = true := by
    decide +kernel
  have hsetup : (Component.parse referringSource referringFile).setupScript.isNone = true := by
    decide +kernel
  have hscript : (Component.parse referringSource referringFile).script.any
      (fun block => block.src = some "./f.js") = true := by
    decide +kernel
  have htemplate : (Component.parse referringSource referringFile).template.isSome = true := by
    decide +kernel
  have hread : referringFiles.read (Path.relativeTo referringFile "./f.js") = .ok functionalScript := by
    decide +kernel
  obtain ⟨output, s', hrun, hlost⟩ := Routine.exists_run_of_any hrun
  obtain ⟨block, hblock, hsrc⟩ := (Option.any_eq_true _ _).1 hscript
  obtain ⟨template, htemplate⟩ := Option.isSome_iff_exists.1 htemplate
  refine ⟨output, block, template, congrArg Prod.fst hrun, Option.isNone_iff_eq_none.1 hsetup, hblock,
    htemplate, ?_, mentionsFunctional_iff.1 (by decide +kernel),
    splitFirst?_eq_none_iff.1 (Option.isNone_iff_eq_none.1 hlost)⟩
  rw [Block.joinedOrigin, of_decide_eq_true hsrc]
  simp only [TextOrigin.text, hread]

end SingleFile
