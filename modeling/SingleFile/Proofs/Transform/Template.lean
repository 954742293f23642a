import SingleFile.Proofs.Assembly.Glue
import SingleFile.Proofs.Component.BlockMap
import SingleFile.Proofs.Component.Cut
import SingleFile.Proofs.Transform.Exports

/-!
# Where the mappings of a template lead

The map that the compiler of templates gives leads to the text that it was asked to compile, counted
from where this text starts, under the name of the component.  In the module these mappings stand
where the code of the template stands, and they still lead there.  So they lead to the lines on which
the text was written just when it was written in the component with no line above it, or in a file
that goes by the name of the component (`template_pointsAt_iff`).
-/

namespace SingleFile

/-- The mapping with another place in the code. -/
def MapEntry.placedBy (place : Position → Position) (e : MapEntry) : MapEntry :=
  { e with generated := place e.generated }

/-- Whether a mapping leads to a file, and there to the line of a position. -/
def MapEntry.PointsAt (e : MapEntry) (file : String) (p : Position) : Prop :=
  e.source = some file ∧ e.original.line = p.line

theorem Fragment.isSome_source_of_mem {f : Fragment} {front : List Char} {e : MapEntry}
    (he : e ∈ f.entriesAfter front) : e.source.isSome = true := by
  cases hmap : f.map with
  | none =>
    rw [entriesAfter_of_none hmap] at he
    exact absurd he List.not_mem_nil
  | some map =>
    rw [entriesAfter_of_some hmap] at he
    obtain ⟨x, hx, rfl⟩ := List.mem_map.1 he
    exact (List.mem_filter.1 hx).2

/-! ### The mappings of a module -/

namespace Assembly

/-- The mappings of a module are those of its fragments, each moved to where its code is. -/
theorem exists_place (a : Assembly) : ∃ place : Position → Position,
    a.draft.entries = (a.laid.flatMap (·.entries)).map (MapEntry.placedBy place) := by
  have halias := holds_pushLine (holds_body a) a.aliasLine
  have hid (es : List MapEntry) : es = es.map (MapEntry.placedBy id) := (List.map_id es).symm
  obtain ⟨place, hplace⟩ : ∃ place : Position → Position,
      a.templateDraft.entries = (a.laid.flatMap (·.entries)).map (MapEntry.placedBy place) := by
    unfold templateDraft laid
    cases a.template with
    | none =>
      rw [Option.map_none, Option.toList_none, List.append_nil, halias.entries]
      exact ⟨id, hid _⟩
    | some f =>
      have hholds := Draft.holds_pushFragment (holds_startLine halias) (startsLine_startLine _) f
      simp only [pushTemplate]
      cases hinsert : (pushFragment (pushLine a.body a.aliasLine) f).insertBeforeLast? renderHelper
          coverageComment with
      | none => exact ⟨id, hholds.entries.trans (hid _)⟩
      | some d =>
        unfold Draft.insertBeforeLast? at hinsert
        split at hinsert
        · simp at hinsert
        · next front rest hsplit =>
          obtain rfl := Option.some.inj hinsert
          exact ⟨fun p => p.shift (Position.origin.after front) (Position.origin.after coverageComment),
            congrArg (List.map _) hholds.entries⟩
  exact ⟨place, draft_of_lines (P := fun d => d.entries = _) a hplace fun d text h =>
    pushLine_of_push (P := fun d => d.entries = _) (fun _ _ h => h) h text⟩

/-- The map of a module has the mappings of its fragments, each moved to where its code is. -/
theorem exists_perm_entries (a : Assembly) : ∃ place : Position → Position,
    a.assemble.1.map.entries.Perm
      ((a.script.toList.flatMap (·.entriesAfter []) ++
        a.template.toList.flatMap (·.entriesAfter a.templateFront)).map
          (MapEntry.placedBy place)) := by
  obtain ⟨place, hplace⟩ := exists_place a
  refine ⟨place, ?_⟩
  have hlaid : a.laid.flatMap (·.entries) = a.script.toList.flatMap (·.entriesAfter []) ++
      a.template.toList.flatMap (·.entriesAfter a.templateFront) := by
    unfold laid
    rw [List.flatMap_append]
    cases a.script <;> cases a.template <;> rfl
  rw [map_assemble, Draft.entries_finish, hplace, hlaid]
  exact perm_stableSort _ _

end Assembly

/-! ### The text of a template -/

/-- Where the text of a template was written: in the component, below some text, or at the start of the
file that the template refers to. -/
inductive TemplateBlock.WrittenIn (b : TemplateBlock) (files : Files) (source file : String) :
    String → String → List Char → Prop
  | inline {front back : List Char} (hsrc : b.src = none) (hplace : b.StandsIn source front back) :
    b.WrittenIn files source file b.content file front
  | linked {src content : String} (hsrc : b.src = some src)
    (hread : files.read (Path.relativeTo file src) = .ok content) :
    b.WrittenIn files source file content (Path.relativeTo file src) []

/-- Whether the map of some render functions leads to characters of the text that was asked about, under
the name that it was given. -/
def TemplateOutput.RelatesTo (made : TemplateOutput) (r : TemplateRequest) : Prop :=
  ∀ map ∈ made.map, ∀ e ∈ map.entries, e.source.isSome = true →
    e.source = some r.file ∧ OnCharacter r.source.toList e.original

variable {κ : Type}

/-- A compiler of templates whose maps lead to the texts that it is asked about. -/
def Compiler.RelatesText (c : Compiler κ TemplateRequest TemplateOutput) : Prop :=
  ∀ pace r s made s', (c.compile pace r).run s = (.ok made, s') → made.RelatesTo r

/-- A template is rendered from the text that was written for it, and its map leads there. -/
theorem Stage.exists_writtenIn {cx : Context κ} {block : TemplateBlock} {bindings : Option Json}
    {f : Fragment} {source : String} {pre post : List Char} {s s' : Session κ}
    (hplace : block.StandsIn source pre post)
    (hrelates : ∀ c ∈ cx.compilers.template, c.RelatesText)
    (hrun : (render cx block bindings).run s = (.ok f, s')) :
    ∃ content authored front, block.WrittenIn cx.files source cx.file content authored front ∧
      ∀ map ∈ f.map, ∀ e ∈ map.entries, e.source.isSome = true →
        e.source = some cx.file ∧ OnCharacter content.toList e.original := by
  obtain ⟨compiler, content, made, s₁, s₂, hcompiler, hmade, rfl, hcontent⟩ :=
    render_content_cases hrun
  have hleads : made.RelatesTo (templateRequest cx block content bindings) :=
    hrelates compiler hcompiler _ _ _ _ _ (Routine.run_mapError_eq_ok hmade)
  cases hsrc : block.src with
  | none =>
    rw [hsrc] at hcontent
    obtain rfl := hcontent
    exact ⟨_, _, _, .inline hsrc hplace, hleads⟩
  | some src =>
    rw [hsrc] at hcontent
    obtain ⟨s₀, hload⟩ := hcontent
    exact ⟨_, _, _, .linked hsrc (read_of_load hload), hleads⟩

/-- A mapping that leads to a character of a text, counted from where it starts, leads to the line of
the character in its file just when the text starts on the first line of a file of that name. -/
theorem MapEntry.pointsAt_iff {e : MapEntry} {file authored : String} {front x : List Char}
    (hsource : e.source = some file) (horiginal : e.original = Position.origin.after x) :
    e.PointsAt authored (Position.origin.after (front ++ x)) ↔ authored = file ∧ breaks front = 0 := by
  unfold MapEntry.PointsAt
  rw [hsource, horiginal, Position.line_after, Position.line_after, breaks_append, Option.some.injEq]
  constructor
  · rintro ⟨hfile, hline⟩
    exact ⟨hfile.symm, by omega⟩
  · rintro ⟨rfl, hfront⟩
    exact ⟨rfl, by omega⟩

namespace SingleFileTransformer

variable {t : SingleFileTransformer κ} {files : Files} {source file : String} {settings : Settings}
  {pace : Pace} {s s' : Session κ} {output : Output} {block : TemplateBlock}

/-- A module with a template is assembled with what its rendering gives. -/
theorem exists_render_of_process
    (hrun : (t.process files source file settings pace).run s = (.ok output, s'))
    (htemplate : (Component.parse source file).template = some block) :
    ∃ (cx : Context κ) (a : Assembly) (f : Fragment) (bindings : Option Json) (s₁ s₂ : Session κ),
      cx.files = files ∧ cx.file = file ∧ cx.compilers = t.compilers ∧ a.assemble.1 = output ∧
      a.template = some f ∧ (Stage.render cx block bindings).run s₁ = (.ok f, s₂) := by
  obtain ⟨cx, a, s₁, s₂, s₃, hcx, hparts, rfl⟩ := process_cases hrun
  obtain ⟨hfiles, hfile, -, hcompilers⟩ := context_cases hcx
  obtain ⟨script, bindings, s₄, -, -, -, hrender⟩ := parts_cases hparts
  rw [htemplate] at hrender
  obtain ⟨f, s₅, s₆, hrender, ha⟩ := hrender
  exact ⟨cx, a, f, bindings, s₅, s₆, hfiles, hfile, hcompilers, rfl, ha, hrender⟩

/-- **Where the mappings of a template lead**: where the compiler of templates relates its code to the
text that it is given, each mapping of the template in the module leads to the file and the line on
which this text was written just when it was written on the first line of a file that goes by the name
of the component. -/
theorem template_pointsAt_iff
    (hrun : (t.process files source file settings pace).run s = (.ok output, s'))
    (htemplate : (Component.parse source file).template = some block)
    (hrelates : ∀ c ∈ t.compilers.template, c.RelatesText) :
    ∃ (content authored : String) (front : List Char) (a : Assembly) (f : Fragment)
      (place : Position → Position),
      block.WrittenIn files source file content authored front ∧
      a.assemble.1 = output ∧ a.template = some f ∧
      output.map.entries.Perm ((a.script.toList.flatMap (·.entriesAfter []) ++
        f.entriesAfter a.templateFront).map (MapEntry.placedBy place)) ∧
      ∀ e ∈ f.entriesAfter a.templateFront, ∃ x c y, content.toList = x ++ c :: y ∧
        e.original = Position.origin.after x ∧
        ((e.placedBy place).PointsAt authored (Position.origin.after (front ++ x)) ↔
          authored = file ∧ breaks front = 0) := by
  obtain ⟨pre, post, hplace⟩ := Component.standsIn_template htemplate
  obtain ⟨cx, a, f, bindings, s₁, s₂, rfl, rfl, hcompilers, rfl, ha, hrender⟩ :=
    exists_render_of_process hrun htemplate
  obtain ⟨content, authored, front, hwritten, hleads⟩ :=
    Stage.exists_writtenIn hplace (hcompilers ▸ hrelates) hrender
  obtain ⟨place, hperm⟩ := a.exists_perm_entries
  rw [ha, Option.toList_some, List.flatMap_singleton] at hperm
  refine ⟨content, authored, front, a, f, place, hwritten, rfl, ha, hperm, fun e he => ?_⟩
  obtain ⟨map, hmap, x, hx, horiginal, hsource, -⟩ := Fragment.exists_entry_of_mem he
  obtain ⟨hfile, y, c, z, hcontent, hy⟩ :=
    hleads map hmap x hx (hsource ▸ Fragment.isSome_source_of_mem he)
  exact ⟨y, c, z, hcontent, horiginal.trans hy,
    MapEntry.pointsAt_iff (e := e.placedBy place) (hsource.trans hfile) (horiginal.trans hy)⟩

end SingleFileTransformer

/-! ### A compiler that gives back its text -/

/-- The compiler that gives back a template, each of its characters mapped to itself. -/
def mirrorCompiler : Compiler Unit TemplateRequest TemplateOutput :=
  .ofBlocking fun r =>
    .done { code := r.source, map := some (blockMap r.file r.source 0 r.source.toList) }

theorem relatesText_mirrorCompiler : mirrorCompiler.RelatesText := by
  intro pace r s made s' hrun map hmap e he hsome
  have hmade : ({ code := r.source, map := some (blockMap r.file r.source 0 r.source.toList) } :
      TemplateOutput) = made := by
    cases pace <;> exact Routine.run_done_eq_ok hrun
  subst hmade
  obtain rfl := Option.some.inj hmap
  obtain ⟨a, c, b, hcontent, -, -, rfl⟩ := mem_entries_blockMap.1 he
  refine ⟨rfl, a, c, b, hcontent, ?_⟩
  unfold blockEntry
  rw [Nat.zero_add]

def mirrorTransformer : SingleFileTransformer Unit :=
  { compilers := { template := some mirrorCompiler } }

/-- A component without a script whose template is written on its second line. -/
def loweredSource : String := "\n<template><p/></template>"

def loweredFile : String := "/app/Lowered.vue"

/-- The module of the component has a mapping that leads to the first line. -/
theorem exists_run_loweredSource : ∃ output s',
    (mirrorTransformer.process {} loweredSource loweredFile markedSettings .blocking).run ⟨[], ()⟩ =
      (.ok output, s') ∧
    (output.map.entries.any fun e =>
      e.source = some loweredFile ∧ e.original = Position.origin) = true :=
  Routine.exists_run_of_any (by decide +kernel)

theorem template_pointsAt_iff_loweredSource : ∃ output block,
    ((mirrorTransformer.process {} loweredSource loweredFile markedSettings .blocking).run
      ⟨[], ()⟩).1 = .ok output ∧
    (Component.parse loweredSource loweredFile).template = some block ∧
    mirrorCompiler.RelatesText ∧
    ∃ (content authored : String) (front : List Char) (a : Assembly) (f : Fragment)
      (place : Position → Position),
      block.WrittenIn {} loweredSource loweredFile content authored front ∧
      a.assemble.1 = output ∧ a.template = some f ∧
      output.map.entries.Perm ((a.script.toList.flatMap (·.entriesAfter []) ++
        f.entriesAfter a.templateFront).map (MapEntry.placedBy place)) ∧
      ∀ e ∈ f.entriesAfter a.templateFront, ∃ x c y, content.toList = x ++ c :: y ∧
        e.original = Position.origin.after x ∧
        ((e.placedBy place).PointsAt authored (Position.origin.after (front ++ x)) ↔
          authored = loweredFile ∧ breaks front = 0) := by
  obtain ⟨output, s', hrun, -⟩ := exists_run_loweredSource
  have htemplate : (Component.parse loweredSource loweredFile).template.isSome = true := by
    decide +kernel
  obtain ⟨block, hblock⟩ := Option.isSome_iff_exists.1 htemplate
  refine ⟨output, block, congrArg Prod.fst hrun, hblock, relatesText_mirrorCompiler, ?_⟩
  refine SingleFileTransformer.template_pointsAt_iff hrun hblock ?_
  rintro c ⟨⟩
  exact relatesText_mirrorCompiler

/-- The template's first character is written on the second line of the component, and its mapping leads
to the first. -/
theorem not_pointsAt_loweredSource : ∃ output e,
    ((mirrorTransformer.process {} loweredSource loweredFile markedSettings .blocking).run
      ⟨[], ()⟩).1 = .ok output ∧
    (Component.parse loweredSource loweredFile).script.isNone ∧
    (Component.parse loweredSource loweredFile).setupScript.isNone ∧
    loweredSource.toList = "\n<template>".toList ++ "<p/></template>".toList ∧
    e ∈ output.map.entries ∧ e.source = some loweredFile ∧ e.original = Position.origin.after [] ∧
    ¬ e.PointsAt loweredFile (Position.origin.after "\n<template>".toList) := by
  obtain ⟨output, s', hrun, hany⟩ := exists_run_loweredSource
  obtain ⟨e, he, hleads⟩ := List.any_eq_true.1 hany
  obtain ⟨hsource, horiginal⟩ := of_decide_eq_true hleads
  refine ⟨output, e, congrArg Prod.fst hrun, by decide +kernel, by decide +kernel, by decide +kernel,
    he, hsource, horiginal, fun hpoints => ?_⟩
  have hline := hpoints.2
  rw [horiginal] at hline
  exact absurd hline (by decide +kernel)

end SingleFile
