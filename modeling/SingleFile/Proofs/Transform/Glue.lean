import SingleFile.Proofs.Assembly.Glue
import SingleFile.Proofs.SourceMap.Compose
import SingleFile.Proofs.Transform.Exports

/-!
# What the map of a module says of text that no fragment holds

A compiler places its mappings if they sit on the code that it gives (`Compiler.Places`); the compiler
of the library does (`Compiler.places_script`).  What a module keeps of the code ends before the first
mark of a map comment, but the mappings are kept all, so those that stand behind a mark are off the
fragment (`onCharacter_withoutMapComment_iff`).  If there are none, lines that show no character of a
fragment resolve to nothing (`original?_eq_none_of_kept`); with a comment in the script they may
(`original?_annotatedSource`).
-/

namespace SingleFile

open Routine

/-! ### Cutting at a mark -/

theorem withoutMapComment_prefix (code : String) :
    (withoutMapComment code).toList <+: code.toList := by
  unfold withoutMapComment
  cases hsplit : splitFirst? mapComment code.toList with
  | none => exact List.prefix_rfl
  | some cut =>
    dsimp only
    rw [String.toList_ofList, splitFirst_eq hsplit, List.append_assoc]
    exact List.prefix_append _ _

/-- A character of some code is kept just when it stands before each mark. -/
theorem onCharacter_withoutMapComment_iff {code : String} {p : Position}
    (hp : OnCharacter code.toList p) :
    OnCharacter (withoutMapComment code).toList p ↔
      ∀ a, a ++ mapComment <+: code.toList → p < Position.origin.after a := by
  obtain ⟨x, c, b, hcode, rfl⟩ := hp
  have hx : x ++ [c] <+: code.toList := ⟨b, by rw [hcode, List.append_assoc]; rfl⟩
  have hkept : OnCharacter (withoutMapComment code).toList (Position.origin.after x) ↔
      x ++ [c] <+: (withoutMapComment code).toList := by
    constructor
    · rintro ⟨y, d, b', hkept, hy⟩
      obtain ⟨dropped, hdropped⟩ := withoutMapComment_prefix code
      have hcut : x ++ c :: b = y ++ d :: (b' ++ dropped) := by
        rw [← hcode, ← hdropped, hkept]
        simp
      obtain rfl := Position.eq_of_after_eq hcut hy
      obtain ⟨rfl, -⟩ := List.cons.inj (List.append_cancel_left hcut)
      exact ⟨b', by rw [hkept, List.append_assoc]; rfl⟩
    · rintro ⟨b', hb'⟩
      exact ⟨x, c, b', by rw [← hb', List.append_assoc]; rfl, rfl⟩
  rw [hkept, prefix_withoutMapComment_iff hx]
  refine forall_congr' fun a => imp_congr_right fun ha => ?_
  have hfront : x <+: code.toList := (List.prefix_append x [c]).trans hx
  have hmark : a <+: code.toList := (List.prefix_append a mapComment).trans ha
  rw [Position.after_lt_after_iff hfront hmark, List.length_append]
  rfl

/-! ### Compilers -/

variable {κ : Type}

def Fragment.Mapped (f : Fragment) : Prop := ∃ map, f.map = some map ∧ map.SitsOn f.code.toList

/-- Whether a compiler of scripts gives maps, and they sit on the code that it gives. -/
def Compiler.Places (c : Compiler κ ScriptRequest Fragment) : Prop :=
  ∀ pace r s made s', (c.compile pace r).run s = (.ok made, s') → made.Mapped

/-- Whether all that makes scripts and templates places its mappings. -/
structure Context.Places (cx : Context κ) : Prop where
  script : cx.compilers.script.Places
  typeScript : ∀ c ∈ cx.compilers.typeScript, c.Places
  transformer : ∀ lang, ∀ t ∈ cx.registry.find? lang, ∀ source s made s',
    (t.processAt cx.pace (.script source cx.file cx.settings)).run s = (.ok made, s') →
      made.fragment.Mapped
  template : ∀ c ∈ cx.compilers.template, ∀ r s made s',
    (c.compile cx.pace r).run s = (.ok made, s') → Fragment.Placed ⟨made.code, made.map⟩

/-- **The compiler of the library places its mappings**: each stands where a word that is copied or a
replacement starts. -/
theorem Compiler.places_script : (Compiler.script : Compiler κ ScriptRequest Fragment).Places := by
  intro pace r s made s' hrun
  obtain ⟨ss, footer, -, hmade⟩ := Script.compile_eq_ok_iff.1 (Stage.run_script hrun)
  generalize Stage.moduleFormat r.settings = format at hmade
  obtain ⟨map, hmap, hentries⟩ := Script.exists_map_assemble format r.file r.source ss footer
  rw [hmade] at hmap
  refine ⟨map, hmap, fun e he => ?_⟩
  obtain ⟨before, shown, c, hfrom, rfl⟩ := Script.mem_layOut.1 ((hentries e).1 he)
  have houtput : shown ++ [c] <+: Script.Segment.outputs ss := by
    rcases hfrom with hword | ⟨hreplace, -⟩
    · exact hword.copies.output
    · exact hreplace.output
  obtain ⟨rest, hrest⟩ := houtput
  refine ⟨Script.front format ++ shown, c,
    rest ++ Script.footerText (Script.front format ++ Script.Segment.outputs ss) footer, ?_, ?_⟩
  · rw [← hmade, Script.code_assemble, ← hrest]
    simp
  · rw [Position.after_append]
    rfl

/-! ### Stages -/

namespace Stage

variable {cx : Context κ} {s s' : Session κ}

/-- What the compilers give for the scripts and the templates of a component. -/
inductive Compiles (cx : Context κ) : Fragment → Prop
  | script {source : String} {lang : Option String} {made : Fragment} {s s' : Session κ}
      (h : (compileScript cx source lang).run s = (.ok made, s')) : Compiles cx made
  | template {compiler : Compiler κ TemplateRequest TemplateOutput} {request : TemplateRequest}
      {made : TemplateOutput} {s s' : Session κ} (hcompiler : cx.compilers.template = some compiler)
      (h : (cx.compile compiler request).run s = (.ok made, s')) : Compiles cx ⟨made.code, made.map⟩

/-- A fragment is what is kept of compiled code, with mappings that stand on characters of all of that
code, and on kept ones just when they stand before each mark. -/
def CutFrom (cx : Context κ) (f : Fragment) : Prop :=
  ∃ made, Compiles cx made ∧ f.code = withoutMapComment made.code ∧
    ∀ map ∈ f.map, ∀ e ∈ map.entries, OnCharacter made.code.toList e.generated ∧
      (OnCharacter f.code.toList e.generated ↔
        ∀ a, a ++ mapComment <+: made.code.toList → e.generated < Position.origin.after a)

theorem cutFrom_of_sitsOn {made f : Fragment} (hmade : Compiles cx made)
    (hcode : f.code = withoutMapComment made.code)
    (hmap : ∀ map ∈ f.map, map.SitsOn made.code.toList) : CutFrom cx f := by
  refine ⟨made, hmade, hcode, fun map hm e he => ⟨hmap map hm e he, ?_⟩⟩
  rw [hcode]
  exact onCharacter_withoutMapComment_iff (hmap map hm e he)

/-- A script is compiled to code with a map that sits on it. -/
theorem mapped_compileScript (h : cx.Places) {source : String} {lang : Option String}
    {made : Fragment} (hrun : (compileScript cx source lang).run s = (.ok made, s')) :
    made.Mapped := by
  unfold compileScript at hrun
  dsimp only at hrun
  cases hfind : cx.registry.find? (lang.getD scriptLang) with
  | some t =>
    simp only [hfind] at hrun
    obtain ⟨-, s₁, -, hrun⟩ := run_bind_eq_ok hrun
    obtain ⟨output, s₂, houtput, hrun⟩ := run_bind_eq_ok hrun
    rw [← run_done_eq_ok hrun]
    exact h.transformer _ t hfind _ _ _ _ (run_mapError_eq_ok houtput)
  | none =>
    simp only [hfind] at hrun
    obtain ⟨compiler, s₁, hcompiler, hrun⟩ := run_bind_eq_ok hrun
    have hplaces : compiler.Places := by
      have hcases := compilerFor_cases hcompiler
      split at hcases
      · exact h.typeScript compiler hcases
      · exact hcases ▸ h.script
    exact hplaces _ _ _ _ _ (run_mapError_eq_ok hrun)

theorem cutFrom_plainBody (h : cx.Places) {block : ScriptBlock} {f : Fragment}
    (hrun : (plainBody cx block).run s = (.ok f, s')) : CutFrom cx f := by
  unfold plainBody at hrun
  split at hrun
  · obtain ⟨content, s₁, -, hrun⟩ := run_bind_eq_ok hrun
    obtain ⟨made, s₂, hmade, hrun⟩ := run_bind_eq_ok hrun
    obtain rfl := run_done_eq_ok hrun
    obtain ⟨map, hmap, hsits⟩ := mapped_compileScript h hmade
    refine cutFrom_of_sitsOn (.script hmade) rfl ?_
    rintro _ hm
    rw [hmap] at hm
    obtain rfl := Option.some.inj hm
    exact hsits.retarget _ _
  · obtain ⟨made, s₁, hmade, hrun⟩ := run_bind_eq_ok hrun
    obtain rfl := run_done_eq_ok hrun
    obtain ⟨map, hmap, hsits⟩ := mapped_compileScript h hmade
    refine cutFrom_of_sitsOn (.script hmade) rfl ?_
    rw [hmap]
    exact hsits.merge? _

theorem cutFrom_setupBody (h : cx.Places) {component : Component} {block : ScriptBlock}
    {f : Fragment} {bindings : Option Json}
    (hrun : (setupBody cx component block).run s = (.ok (f, bindings), s')) : CutFrom cx f := by
  unfold setupBody at hrun
  split at hrun
  · obtain ⟨script, s₁, -, hrun⟩ := run_bind_eq_ok hrun
    obtain ⟨made, s₂, hmade, hrun⟩ := run_bind_eq_ok hrun
    obtain ⟨rfl, -⟩ := Prod.mk.inj (run_done_eq_ok hrun)
    obtain ⟨map, hmap, hsits⟩ := mapped_compileScript h hmade
    refine cutFrom_of_sitsOn (.script hmade) rfl ?_
    rw [hmap]
    exact hsits.merge? _
  · simp [run, throw, throwThe, MonadExceptOf.throw] at hrun

theorem cutFrom_body (h : cx.Places) {component : Component} {f : Fragment}
    {bindings : Option Json}
    (hrun : (body cx component).run s = (.ok (some f, bindings), s')) : CutFrom cx f := by
  unfold body at hrun
  split at hrun
  · obtain ⟨⟨made, names⟩, s₁, hmade, hrun⟩ := run_bind_eq_ok hrun
    obtain ⟨hf, -⟩ := Prod.mk.inj (run_done_eq_ok hrun)
    obtain rfl := Option.some.inj hf
    exact cutFrom_setupBody h hmade
  · obtain ⟨made, s₁, hmade, hrun⟩ := run_bind_eq_ok hrun
    obtain ⟨hf, -⟩ := Prod.mk.inj (run_done_eq_ok hrun)
    obtain rfl := Option.some.inj hf
    exact cutFrom_plainBody h hmade
  · obtain ⟨hf, -⟩ := Prod.mk.inj (run_done_eq_ok hrun)
    cases hf

theorem cutFrom_render (h : cx.Places) {template : TemplateBlock} {bindings : Option Json}
    {f : Fragment} (hrun : (render cx template bindings).run s = (.ok f, s')) : CutFrom cx f := by
  obtain ⟨compiler, content, made, s₁, s₂, hcompiler, hmade, rfl⟩ := render_cases hrun
  exact cutFrom_of_sitsOn (.template hcompiler hmade) rfl
    (h.template compiler hcompiler _ _ _ _ (run_mapError_eq_ok hmade))

end Stage

/-! ### Modules -/

namespace SingleFileTransformer

variable {t : SingleFileTransformer κ} {files : Files} {source file : String}
  {settings : Settings} {pace : Pace} {s s' s₁ : Session κ} {output : Output} {cx : Context κ}

theorem cutFrom_of_parts (h : cx.Places) {component : Component} {a : Assembly}
    (hrun : (parts cx component).run s = (.ok a, s')) :
    ∀ x ∈ a.laid, Stage.CutFrom cx x.fragment := by
  obtain ⟨script, bindings, s₁, hbody, -, hscript, htemplate⟩ := parts_cases hrun
  intro x hx
  rcases List.mem_append.1 hx with hx | hx
  · obtain ⟨f, hf, rfl⟩ := Option.map_eq_some_iff.1 (Option.mem_toList.1 hx)
    rw [hscript] at hf
    subst hf
    exact Stage.cutFrom_body h hbody
  · obtain ⟨f, hf, rfl⟩ := Option.map_eq_some_iff.1 (Option.mem_toList.1 hx)
    cases hblock : component.template with
    | none =>
      rw [hblock] at htemplate
      rw [htemplate] at hf
      cases hf
    | some template =>
      rw [hblock] at htemplate
      obtain ⟨g, s₂, s₃, hrender, hg⟩ := htemplate
      obtain rfl := Option.some.inj (hg.symm.trans hf)
      exact Stage.cutFrom_render h hrender

/-- **Generated text is attributed to nothing** where no mapping stands behind a mark: each fragment
is cut from what a compiler gave, a mapping stands on what is kept just when it stands before each
mark, and if all of them do, lines that show no character of a fragment resolve to nothing. -/
theorem original?_eq_none_of_kept
    (hrun : (t.process files source file settings pace).run s = (.ok output, s'))
    (hcx : (t.context files file settings pace).run s = (.ok cx, s₁)) (hplaces : cx.Places) :
    (Compiler.script : Compiler κ ScriptRequest Fragment).Places ∧
      ∃ (a : Assembly) (s₂ s₃ : Session κ) (spot : Option Nat) (whole : List Char),
        (parts cx (Component.parse source file)).run s₂ = (.ok a, s₃) ∧ a.assemble.1 = output ∧
        output.code.toList = annotate spot whole ∧
        (∀ x ∈ a.laid, x.code <+: whole ∧ Stage.CutFrom cx x.fragment) ∧
        ((∀ x ∈ a.laid, x.fragment.Placed) → ∀ p : Position,
          (∀ x ∈ a.laid, ¬ x.ShownOn spot p.line) → output.map.original? p = none) := by
  refine ⟨Compiler.places_script, ?_⟩
  obtain ⟨cx', a, s₂, s₃, s₄, hcx', hparts, rfl⟩ := process_cases hrun
  obtain rfl : cx = cx' := Except.ok.inj (Prod.ext_iff.1 (hcx.symm.trans hcx')).1
  obtain ⟨spot, whole, hcode, hfront, hnone⟩ := a.original?_eq_none_of_placed
  have hcut := cutFrom_of_parts hplaces hparts
  exact ⟨a, s₃, s₄, spot, whole, hparts, rfl, hcode, fun x hx => ⟨hfront x hx, hcut x hx⟩, hnone⟩

end SingleFileTransformer

/-! ### A comment about another map -/

/-- A script that ends with a comment about a map of its own. -/
def annotatedScript : String := "\nexport default \x7b\x7d\n//# sourceMappingURL=a.js.map\n"

def annotatedSource : String := "<script>" ++ annotatedScript ++ "</script>\n"

def annotatedFile : String := "/app/A.vue"

/-- What is kept of the compiled script. -/
def annotatedFront : List Char := (Script.header ++ "\nexports.default = \x7b\x7d\n").toList

def annotatedContext : Context Unit where
  file := annotatedFile
  settings := {}
  options := {}
  registry := {}
  nameMap := ⟨[]⟩
  files := {}
  compilers := {}
  pace := .blocking

theorem places_annotatedContext : annotatedContext.Places where
  script := Compiler.places_script
  typeScript := by
    rintro c ⟨⟩
  transformer := by
    rintro lang t ⟨⟩
  template := by
    rintro c ⟨⟩

/-- The script is kept up to the comment, and the alias that follows it answers for the comment. -/
theorem exists_run_annotatedSource : ∃ output s',
    (plainTransformer.process {} annotatedSource annotatedFile {} .blocking).run ⟨[], ()⟩ =
      (.ok output, s') ∧
    output.code.toList = annotatedFront ++ (Assembly.optionsAlias false []).1.toList ∧
    output.map.original? (Position.origin.after annotatedFront) =
      some ⟨annotatedFile, ⟨2, 0⟩, none⟩ := by
  have hrun : ((plainTransformer.process {} annotatedSource annotatedFile {}
      .blocking).run ⟨[], ()⟩).1.toOption.any (fun output =>
        output.code = Script.header ++ "\nexports.default = \x7b\x7d\n" ++
          (Assembly.optionsAlias false []).1 &&
        output.map.original? (Position.origin.after annotatedFront) =
          some ⟨annotatedFile, ⟨2, 0⟩, none⟩) = true := by
    decide +kernel
  obtain ⟨output, s', hrun, houtput⟩ := exists_run_of_any hrun
  simp only [Bool.and_eq_true, decide_eq_true_eq] at houtput
  obtain ⟨hcode, horigin⟩ := houtput
  refine ⟨output, s', hrun, ?_, horigin⟩
  rw [hcode, String.toList_append]
  rfl

theorem cutFrom_annotatedSource :
    ∃ output, ((plainTransformer.process {} annotatedSource annotatedFile {} .blocking).run
        ⟨[], ()⟩).1 = .ok output ∧
      ∃ (a : Assembly) (s₂ s₃ : Session Unit) (spot : Option Nat) (whole : List Char),
        (SingleFileTransformer.parts annotatedContext
          (Component.parse annotatedSource annotatedFile)).run s₂ = (.ok a, s₃) ∧
        a.assemble.1 = output ∧ output.code.toList = annotate spot whole ∧
        (∀ x ∈ a.laid, x.code <+: whole ∧ Stage.CutFrom annotatedContext x.fragment) ∧
        ((∀ x ∈ a.laid, x.fragment.Placed) → ∀ p : Position,
          (∀ x ∈ a.laid, ¬ x.ShownOn spot p.line) → output.map.original? p = none) := by
  obtain ⟨output, s', hrun, -⟩ := exists_run_annotatedSource
  have hcx : (plainTransformer.context {} annotatedFile {} .blocking).run ⟨[], ()⟩ =
      (.ok annotatedContext, ⟨[], ()⟩) := rfl
  obtain ⟨-, hall⟩ :=
    SingleFileTransformer.original?_eq_none_of_kept hrun hcx places_annotatedContext
  exact ⟨output, congrArg Prod.fst hrun, hall⟩

/-- The line below the script, which binds the options, resolves to the comment in the component. -/
theorem original?_annotatedSource :
    (Compiler.script : Compiler Unit ScriptRequest Fragment).Places ∧
      ∃ output, ((plainTransformer.process {} annotatedSource annotatedFile {} .blocking).run
          ⟨[], ()⟩).1 = .ok output ∧
        StartsLine annotatedFront ∧
        output.code.toList = annotatedFront ++ (Assembly.optionsAlias false []).1.toList ∧
        output.map.original? (Position.origin.after annotatedFront) =
          some ⟨annotatedFile, ⟨2, 0⟩, none⟩ := by
  obtain ⟨output, s', hrun, hcode, horigin⟩ := exists_run_annotatedSource
  have hline : StartsLine annotatedFront :=
    .inr (List.getLast?_eq_some_iff.1 (Assembly.getLast?_append_ofList _ rfl))
  exact ⟨Compiler.places_script, output, congrArg Prod.fst hrun, hline, hcode, horigin⟩

end SingleFile
