import SingleFile.Proofs.Assembly.Front
import SingleFile.Proofs.Component.BlockMap
import SingleFile.Proofs.Component.Cut
import SingleFile.Proofs.Script.Rewriting
import SingleFile.Proofs.SourceMap.Finish
import SingleFile.Proofs.Transform.Run

/-!
# The map of a module is exact

`MapsScript` says what the map of a module holds where a plain script makes its body: each mapping
leads from a character of the code to where it stands in the file, and each word has one.
`mem_entriesAfter_body` gives the mappings of the body, `mapsScript_of_follows` those of a draft
that starts with it, `fits_of_follows` says that they can be written, and `exists_mapsScript` follows
the map from the component to what is read of it.
-/

namespace SingleFile

open Script Script.Segment Assembly

/-! ### Entries -/

/-- The mapping from behind `shown` in some code to behind `before` in the content of a block that
starts behind `pre` in its file. -/
def contentEntry (file : String) (pre before shown : List Char) : MapEntry where
  generated := Position.origin.after shown
  original := ⟨breaks pre + (Position.origin.after before).line, (Position.origin.after before).column⟩
  source := some file
  name := none

/-- The mappings of a module are those of its script: each one leads from a character that is copied,
or that a replacement starts with, to where it, or what is replaced, stands in the content, and the
words that are copied on lines that are not bare have one. -/
structure MapsScript (file : String) (pre content : List Char) (ss : List Segment)
    (place : List Char → List Char) (code : List Char) (es : List MapEntry) : Prop where
  sound : ∀ e ∈ es, ∃ before shown c d, before ++ [d] <+: content ∧
    (Copies ss before shown c ∧ d = c ∨ Replaces ss before shown c) ∧
    place shown ++ [c] <+: code ∧ e = contentEntry file pre before (place shown) ∧
    (0 < breaks before → e.original = Position.origin.after (pre ++ before))
  complete : ∀ before shown c rest, StartsWord ss before shown c → content = before ++ c :: rest →
    isBareLine (lineAround before c rest) = false →
      contentEntry file pre before (place shown) ∈ es

/-- Behind the first line of a content, lines and columns are those of the file. -/
theorem original_contentEntry {file : String} {pre before shown : List Char}
    (h : 0 < breaks before) :
    (contentEntry file pre before shown).original = Position.origin.after (pre ++ before) := by
  have hbefore : (Position.origin.after pre).after before =
      ⟨(Position.origin.after pre).line + breaks before, units (lastLine before)⟩ := by
    rw [Position.after, if_neg (by omega)]
  rw [Position.after_append, hbefore, Position.line_after, Position.line_origin, Nat.zero_add,
    contentEntry]
  dsimp only
  rw [after_origin before]

/-! ### Code -/

theorem withoutMapComment_eq_self {code : String} (h : ¬ mapComment <:+: code.toList) :
    withoutMapComment code = code := by
  rw [withoutMapComment, splitFirst?_eq_none_iff.2 h]

/-- The coverage comment moves no character to the right. -/
theorem column_annotate_le (spot : Option Nat) (x : List Char) :
    (Position.origin.after (annotate spot x)).column ≤ byteLength x := by
  have hunits (cs : List Char) : (Position.origin.after cs).column ≤ units cs := by
    have hle := Position.column_after_le .origin cs
    rwa [Position.column_origin, Nat.zero_add] at hle
  cases spot with
  | none => exact Nat.le_trans (hunits x) (units_le_byteLength x)
  | some n =>
    unfold annotate
    dsimp only
    split
    · have hcomment : coverageComment = "/* istanbul ignore next */".toList ++ ['\n'] := by decide
      have hrest : (Position.origin.after (x.take n ++ coverageComment)).column = 0 := by
        rw [hcomment, ← List.append_assoc]
        exact Position.column_after_break _ _
      have hle :=
        Position.column_after_le (Position.origin.after (x.take n ++ coverageComment)) (x.drop n)
      rw [hrest, Nat.zero_add] at hle
      have hdrop : units (x.drop n) ≤ units x := by
        have hx := units_append (x.take n) (x.drop n)
        rw [List.take_append_drop] at hx
        omega
      rw [Position.after_append]
      exact Nat.le_trans hle (Nat.le_trans hdrop (units_le_byteLength x))
    · exact Nat.le_trans (hunits x) (units_le_byteLength x)

/-! ### The script of a module -/

section Body

variable {format : ModuleFormat} {file source content : String} {pre : List Char} {ss : List Segment}
  {footer : List String} {made body : Fragment}
  (hdivides : Divides format content ss footer)
  (hmade : assemble format file content ss footer = made) (hcode : body.code = made.code)
  (hmap : body.map =
    SourceMap.merge? (some (blockMap file source (breaks pre) content.toList)) made.map)

include hmade hmap in
/-- The mappings of the body of a module are those of its script that can be traced. -/
theorem mem_entriesAfter_body {e : MapEntry} :
    e ∈ body.entriesAfter [] ↔ ∃ before shown c,
      (StartsWord ss before shown c ∨ Replaces ss before shown c ∧ isBlank c = false) ∧
        (blockMap file source (breaks pre) content.toList).trace
          (entryAt file (Position.origin.after (front format ++ shown))
            (Position.origin.after before)) = some e := by
  obtain ⟨map, hmadeMap, hentries⟩ := exists_map_assemble format file content ss footer
  rw [hmade] at hmadeMap
  rw [hmadeMap] at hmap
  have hsource : ∀ e ∈ (SourceMap.merge
      (blockMap file source (breaks pre) content.toList) map).entries, e.source.isSome = true := by
    intro e he
    obtain ⟨x, -, hx⟩ := (mem_entries_merge rfl).1 he
    rw [trace_blockMap hx]
    rfl
  have hmove : MapEntry.moveTo (Position.origin.after []) = id := by
    funext e
    rw [MapEntry.moveTo, Position.after_nil, Position.origin_offsetBy]
    rfl
  rw [Fragment.entriesAfter_of_some hmap, movedEntries_eq hsource, hmove, List.map_id,
    mem_entries_merge rfl]
  constructor
  · rintro ⟨x, hx, htrace⟩
    obtain ⟨before, shown, c, hfrom, rfl⟩ := mem_layOut.1 ((hentries x).1 hx)
    rw [← Position.after_append] at htrace
    exact ⟨before, shown, c, hfrom, htrace⟩
  · rintro ⟨before, shown, c, hfrom, htrace⟩
    refine ⟨_, (hentries _).2 (mem_layOut.2 ⟨before, shown, c, hfrom, rfl⟩), ?_⟩
    rwa [← Position.after_append]

include hmade hcode in
/-- What stands in the compiled segments stands in the code of the body. -/
theorem exists_code_of_outputs {shown : List Char} {c : Char} (h : shown ++ [c] <+: outputs ss) :
    ∃ rest, body.code.toList = (front format ++ shown) ++ c :: rest := by
  obtain ⟨rest, hrest⟩ := h
  refine ⟨rest ++ footerText (front format ++ outputs ss) footer, ?_⟩
  rw [hcode, ← hmade, Script.code_assemble, ← hrest]
  simp

include hmade hcode hmap

/-- A mapping of the body belongs to one character of its code. -/
theorem exists_of_mem_entriesAfter_body {e : MapEntry} (he : e ∈ body.entriesAfter []) :
    ∃ before shown c rest, (Copies ss before shown c ∨ Replaces ss before shown c) ∧
      body.code.toList = (front format ++ shown) ++ c :: rest ∧
      e = contentEntry file pre before (front format ++ shown) := by
  obtain ⟨before, shown, c, hfrom, htrace⟩ := (mem_entriesAfter_body hmade hmap).1 he
  have hfrom : Copies ss before shown c ∨ Replaces ss before shown c :=
    hfrom.imp StartsWord.copies And.left
  have houtput : shown ++ [c] <+: outputs ss := hfrom.elim Copies.output Replaces.output
  obtain ⟨rest, hrest⟩ := exists_code_of_outputs hmade hcode houtput
  exact ⟨before, shown, c, rest, hfrom, hrest, trace_blockMap htrace⟩

theorem onCharacter_of_mem_entriesAfter_body {e : MapEntry} (he : e ∈ body.entriesAfter []) :
    OnCharacter body.code.toList e.generated := by
  obtain ⟨before, shown, c, rest, -, hrest, rfl⟩ :=
    exists_of_mem_entriesAfter_body hmade hcode hmap he
  exact ⟨front format ++ shown, c, rest, hrest, rfl⟩

section Follows

variable {d : Draft} {spot : Option Nat} (hfollows : d.Follows spot body)

include hfollows

/-- A mapping of a draft that starts with the body belongs to one character of the body. -/
theorem exists_of_mem_entries {e : MapEntry} (he : e ∈ d.entries) :
    ∃ before shown c rest, (Copies ss before shown c ∨ Replaces ss before shown c) ∧
      body.code.toList = (front format ++ shown) ++ c :: rest ∧
      e = contentEntry file pre before (annotate spot (front format ++ shown)) := by
  obtain ⟨x, c, y, hx, e', he', hgenerated, rfl⟩ := (hfollows e).1 he
  obtain ⟨before, shown, c', rest, hfrom, hrest, rfl⟩ :=
    exists_of_mem_entriesAfter_body hmade hcode hmap he'
  have hx' : front format ++ shown = x := Position.eq_of_after_eq (hrest.symm.trans hx) hgenerated
  exact ⟨before, shown, c', rest, hfrom, hrest, by rw [← hx']; rfl⟩

include hdivides

/-- The mappings of a draft that starts with the body are those of the script. -/
theorem mapsScript_of_follows (hstarts : d.StartsWith spot body.code.toList) :
    MapsScript file pre content.toList ss (fun shown => annotate spot (front format ++ shown))
      d.code d.entries where
  sound e he := by
    obtain ⟨before, shown, c, rest, hfrom, hrest, rfl⟩ :=
      exists_of_mem_entries hmade hcode hmap hfollows he
    obtain ⟨tail, -, hall⟩ := hstarts
    have hplace : annotate spot (front format ++ shown) ++ [c] <+: d.code := by
      rw [hall, hrest, List.append_assoc, List.cons_append]
      exact annotate_append_cons spot _ c _
    rcases hfrom with hcopy | hreplace
    · refine ⟨before, shown, c, c, ?_, .inl ⟨hcopy, rfl⟩, hplace, rfl, original_contentEntry⟩
      rw [← sources_of_divides hdivides]
      exact hcopy.source
    · obtain ⟨first, hfirst⟩ := hreplace.exists_source hdivides
      exact ⟨before, shown, c, first, hfirst, .inr hreplace, hplace, rfl, original_contentEntry⟩
  complete before shown c rest hword hcontent hbare := by
    obtain ⟨more, hmore⟩ := exists_code_of_outputs hmade hcode hword.copies.output
    have he : contentEntry file pre before (front format ++ shown) ∈ body.entriesAfter [] :=
      (mem_entriesAfter_body hmade hmap).2 ⟨before, shown, c, .inl hword,
        trace_blockMap_of_ink hcontent hword.1 hbare rfl rfl⟩
    exact (hfollows _).2 ⟨front format ++ shown, c, more, hmore, _, he, rfl, rfl⟩

/-- The mappings of a draft that starts with the body can be written, if the file and the body have
less than 4 gibibytes. -/
theorem fits_of_follows {post : List Char} (hsource : source.toList = pre ++ content.toList ++ post)
    (hsize : byteLength source.toList < 2 ^ 32) (hbody : byteLength body.code.toList < 2 ^ 32)
    {e : MapEntry} (he : e ∈ d.entries) : e.Fits [file] [] := by
  obtain ⟨before, shown, c, rest, hfrom, hrest, rfl⟩ :=
    exists_of_mem_entries hmade hcode hmap hfollows he
  have hbefore : before <+: content.toList := by
    rw [← sources_of_divides hdivides]
    rcases hfrom with hcopy | hreplace
    · exact (List.prefix_append before [c]).trans hcopy.source
    · exact hreplace.source
  obtain ⟨after, hafter⟩ := hbefore
  have hlength : byteLength pre + byteLength before ≤ byteLength source.toList := by
    rw [hsource, ← hafter]
    simp only [byteLength_append]
    omega
  have hshown : byteLength (front format ++ shown) ≤ byteLength body.code.toList := by
    rw [hrest, byteLength_append (front format ++ shown)]
    exact Nat.le_add_right _ _
  have hcolumn := column_annotate_le spot (front format ++ shown)
  have hbreaks := breaks_le_byteLength pre
  have hlines := breaks_le_byteLength before
  have hunits := Nat.le_trans (units_lastLine_le before) (units_le_byteLength before)
  refine ⟨⟨file, List.mem_singleton_self file, rfl⟩, by simp [contentEntry], ?_, ?_, ?_⟩
  · show (Position.origin.after (annotate spot (front format ++ shown))).column < 2 ^ 32
    omega
  · show breaks pre + (Position.origin.after before).line < 2 ^ 32
    rw [after_origin]
    dsimp only
    omega
  · show (Position.origin.after before).column < 2 ^ 32
    rw [after_origin]
    dsimp only
    omega

end Follows

end Body

namespace SingleFileTransformer

variable {κ : Type} {t : SingleFileTransformer κ} {files : Files} {source file : String}
  {settings : Settings} {pace : Pace} {s s' s₁ : Session κ} {output : Output} {cx : Context κ}
  {block : ScriptBlock} {made : Fragment}

theorem map_eq_none_of_render {template : Option TemplateBlock} {rendered : Option Fragment}
    (h : match template with
      | none => rendered = none
      | some template => ∃ f s₂ s₃, (Stage.render cx template none).run s₂ = (.ok f, s₃) ∧
          rendered = some f)
    (htemplate : ∀ b ∈ template, ∀ s f s',
      (Stage.render cx b none).run s = (.ok f, s') → f.map = none) :
    ∀ f ∈ rendered, f.map = none := by
  cases template with
  | none =>
    obtain rfl := h
    rintro f ⟨⟩
  | some template =>
    obtain ⟨f, s₂, s₃, hrender, rfl⟩ := h
    rintro _ ⟨⟩
    exact htemplate template rfl _ _ _ hrender

/-- **The map of a module is exact for a plain script**: what is read of it maps the script, which
starts the code apart from the coverage comment. -/
theorem exists_mapsScript
    (hrun : (t.process files source file settings pace).run s = (.ok output, s'))
    (hcx : (t.context files file settings pace).run s = (.ok cx, s₁))
    (hscript : (Component.parse source file).script = some block)
    (hsetup : (Component.parse source file).setupScript = none) (hinline : block.src = none)
    (hlang : Stage.BuiltIn cx block.lang)
    (hmade : Script.compile (Stage.moduleFormat settings) file block.content = .ok made)
    (hcomment : ¬ mapComment <:+: made.code.toList)
    (htemplate : ∀ template ∈ (Component.parse source file).template, ∀ s f s',
      (Stage.render cx template none).run s = (.ok f, s') → f.map = none)
    (hsource : byteLength source.toList < 2 ^ 32) (hcode : byteLength made.code.toList < 2 ^ 32) :
    ∃ pre post ss footer spot tail parsed,
      source.toList = pre ++ block.content.toList ++ post ∧
      block.contentSpan.start = byteLength pre ∧
      Script.Divides (Stage.moduleFormat settings) block.content ss footer ∧
      Script.assemble (Stage.moduleFormat settings) file block.content ss footer = made ∧
      output.code.toList = annotate spot (made.code.toList ++ tail) ∧
      SourceMap.parse output.map.toJson = .ok parsed ∧
      MapsScript file pre block.content.toList ss
        (fun shown => annotate spot (front (Stage.moduleFormat settings) ++ shown))
        output.code.toList parsed.entries := by
  obtain ⟨a, body, content, made', rfl, hascript, hmade', hbodyCode, hbodyMap, hatemplate⟩ :=
    process_plain_cases hrun hcx hscript hsetup hlang
  rw [hinline] at hbodyMap
  obtain ⟨rfl, hbodyMap⟩ := hbodyMap
  obtain rfl := Except.ok.inj (hmade.symm.trans hmade')
  rw [withoutMapComment_eq_self hcomment] at hbodyCode
  obtain ⟨hfilename, hcomponent, hlocated⟩ := Component.reads_parse source file
  obtain ⟨pre, post, hstands, hblockMap⟩ := hlocated.script block hscript
  rw [hfilename, hcomponent] at hblockMap
  rw [hcomponent] at hstands
  rw [hblockMap] at hbodyMap
  obtain ⟨ss, footer, hdivides, hassemble⟩ := compile_eq_ok_iff.1 hmade
  obtain ⟨spot, hstarts, hfollows⟩ := exists_spot hascript
  have hstarts := Draft.startsWith_of_prefix hstarts (prefix_code_pushLine_alias hascript)
  have hnone := map_eq_none_of_render hatemplate htemplate
  -- the template has no map, so the draft has the mappings of the body only
  have hfollows := hfollows hnone fun e he =>
    onCharacter_of_mem_entriesAfter_body hassemble hbodyCode hbodyMap he
  have hmaps := mapsScript_of_follows hdivides hassemble hbodyCode hbodyMap hfollows hstarts
  have hfits (e : MapEntry) (he : e ∈ a.draft.entries) : e.Fits [file] [] :=
    fits_of_follows hdivides hassemble hbodyCode hbodyMap hfollows hstands.text hsource
      (hbodyCode ▸ hcode) he
  have hparse := @Draft.exists_parse_finish a.draft [file] [] (some a.filename) hfits (by simp)
    (by simp)
  rw [← map_assemble] at hparse
  obtain ⟨parsed, hparsed, hentries, -⟩ := hparse
  obtain ⟨tail, -, hall⟩ := hstarts
  rw [← Assembly.code_assemble] at hall hmaps
  refine ⟨pre, post, ss, footer, spot, tail, parsed, hstands.text, ?_, hdivides, hassemble,
    hbodyCode ▸ hall, hparsed, ?_⟩
  · rw [hstands.span]
  · exact ⟨fun e he => hmaps.sound e ((hentries e).1 he),
      fun before shown c rest hword hcontent hbare =>
        (hentries _).2 (hmaps.complete before shown c rest hword hcontent hbare)⟩

end SingleFileTransformer

/-! ### A script with a map -/

def mappedScript : String := "\nimport a from 'b'\nconst c = a // twice\nexport default c\n"

def mappedSource : String :=
  "<script>" ++ mappedScript ++ "</script>\n<template><p/></template>\n"

def mappedFile : String := "/app/Mapped.vue"

def unmappedCompiler : Compiler Unit TemplateRequest TemplateOutput :=
  .ofBlocking fun _ => .done {
    code := "var render = function () \x7b\x7d\nvar staticRenderFns = []\n" }

def mappedTransformer : SingleFileTransformer Unit :=
  { compilers := { template := some unmappedCompiler } }

def mappedContext : Context Unit where
  file := mappedFile
  settings := {}
  options := {}
  registry := {}
  nameMap := ⟨[]⟩
  files := {}
  compilers := mappedTransformer.compilers
  pace := .blocking

theorem map_render_mappedContext {template : TemplateBlock} {s s' : Session Unit} {f : Fragment}
    (h : (Stage.render mappedContext template none).run s = (.ok f, s')) : f.map = none := by
  obtain ⟨compiler, content, made, s₁, s₂, hcompiler, hmade, rfl⟩ := Stage.render_cases h
  have hcompiler : unmappedCompiler = compiler := Option.some.inj hcompiler
  rw [← hcompiler, Context.compile, Work.act] at hmade
  have hmade := Routine.run_mapError_eq_ok hmade
  rw [← Routine.run_done_eq_ok hmade]

theorem exists_mapsScript_mappedSource :
    ∃ output block made, ((mappedTransformer.process {} mappedSource mappedFile {} .blocking).run
        ⟨[], ()⟩).1 = .ok output ∧
      (Component.parse mappedSource mappedFile).script = some block ∧
      Script.compile .commonJS mappedFile block.content = .ok made ∧
      ∃ pre post ss footer spot tail parsed,
        mappedSource.toList = pre ++ block.content.toList ++ post ∧
        block.contentSpan.start = byteLength pre ∧
        Script.Divides .commonJS block.content ss footer ∧
        Script.assemble .commonJS mappedFile block.content ss footer = made ∧
        output.code.toList = annotate spot (made.code.toList ++ tail) ∧
        SourceMap.parse output.map.toJson = .ok parsed ∧
        MapsScript mappedFile pre block.content.toList ss
          (fun shown => annotate spot (front .commonJS ++ shown)) output.code.toList
          parsed.entries := by
  have houtput : ((mappedTransformer.process {} mappedSource mappedFile {} .blocking).run
      ⟨[], ()⟩).1.toOption.any (fun _ => true) = true := by
    decide +kernel
  have hparse : ((Component.parse mappedSource mappedFile).setupScript.isNone &&
      (Component.parse mappedSource mappedFile).script.any fun block =>
        block.src = none && block.lang = none && block.content = mappedScript) = true := by
    decide +kernel
  have hcompiled : (compiledText? .commonJS mappedScript).any (fun code =>
      (splitFirst? mapComment code).isNone && byteLength code < 2 ^ 32) = true := by
    decide +kernel
  obtain ⟨output, s', hrun, -⟩ := Routine.exists_run_of_any houtput
  obtain ⟨hsetup, hparse⟩ := Bool.and_eq_true_iff.1 hparse
  obtain ⟨block, hscript, hblock⟩ := (Option.any_eq_true _ _).1 hparse
  obtain ⟨made, hmade, hcompiled⟩ := exists_compile_of_any hcompiled mappedFile
  simp only [Bool.and_eq_true, decide_eq_true_eq, Option.isNone_iff_eq_none,
    splitFirst?_eq_none_iff] at hblock hcompiled
  obtain ⟨⟨hinline, hlang⟩, hcontent⟩ := hblock
  rw [← hcontent] at hmade
  have hbuiltIn : Stage.BuiltIn mappedContext block.lang := by
    rw [hlang]
    exact ⟨rfl, rfl⟩
  refine ⟨output, block, made, congrArg Prod.fst hrun, hscript, hmade, ?_⟩
  have hcx : (mappedTransformer.context {} mappedFile {} .blocking).run ⟨[], ()⟩ =
      (.ok mappedContext, ⟨[], ()⟩) := rfl
  exact SingleFileTransformer.exists_mapsScript hrun hcx hscript
    (Option.isNone_iff_eq_none.1 hsetup) hinline hbuiltIn hmade hcompiled.1
    (fun template _ s f s' h => map_render_mappedContext h) (by decide +kernel) hcompiled.2

end SingleFile
