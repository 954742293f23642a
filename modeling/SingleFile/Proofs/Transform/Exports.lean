import SingleFile.Proofs.Assembly.Front
import SingleFile.Proofs.Script.Trace
import SingleFile.Proofs.Text.Search
import SingleFile.Proofs.Transform.Run

/-!
# Which exports a module keeps

What a script exports is emitted in the place of a declaration, or on a line at the end
(`Script.Emits`).  A module keeps what stands before the first mark of a map comment in the compiled
code (`prefix_withoutMapComment_iff`), wherever the mark stands.  So what is emitted is in the module
just when it ends before each mark (`emitted_kept_iff`), and an export below a mark in a literal is
lost (`not_infix_markedSource`).
-/

namespace SingleFile

/-! ### Dropping a map comment -/

/-- What is kept of some code ends before each mark. -/
theorem prefix_withoutMapComment_iff {code : String} {x : List Char} (hx : x <+: code.toList) :
    x <+: (withoutMapComment code).toList ↔
      ∀ a, a ++ mapComment <+: code.toList → x.length ≤ a.length := by
  unfold withoutMapComment
  cases hsplit : splitFirst? mapComment code.toList with
  | none =>
    have hno := splitFirst?_eq_none_iff.1 hsplit
    constructor
    · rintro - a ⟨b, hb⟩
      exact absurd ⟨a, b, hb⟩ hno
    · intro h
      exact hx
  | some cut =>
    obtain ⟨front, back⟩ := cut
    have hcode := splitFirst_eq hsplit
    dsimp only
    rw [String.toList_ofList]
    constructor
    · rintro h a ⟨b, hb⟩
      exact Nat.le_trans h.length_le (length_le_of_splitFirst? hsplit hb.symm)
    · intro h
      have hle := h front ⟨back, hcode.symm⟩
      have hfront : front <+: code.toList := ⟨mapComment ++ back, by rw [hcode, List.append_assoc]⟩
      exact List.prefix_of_prefix_length_le hx hfront hle

/-- What follows the code that is kept does not continue it as a mark would. -/
theorem prefix_withoutMapComment_append_iff {code : String} {x rest : List Char} {c : Char}
    (hc : c ≠ '/') (hx : x <+: code.toList) :
    x <+: (withoutMapComment code).toList ++ c :: rest ↔ x <+: (withoutMapComment code).toList := by
  unfold withoutMapComment
  cases hsplit : splitFirst? mapComment code.toList with
  | none => exact ⟨fun _ => hx, fun h => h.trans (List.prefix_append _ _)⟩
  | some cut =>
    obtain ⟨front, back⟩ := cut
    have hcode := splitFirst_eq hsplit
    have hmark : mapComment = '/' :: mapComment.tail := by decide
    dsimp only
    rw [String.toList_ofList]
    constructor
    · intro h
      by_contra hlonger
      rw [hcode, List.append_assoc] at hx
      rcases List.prefix_or_prefix_of_prefix h (List.prefix_append _ _) with hshort | ⟨y, rfl⟩
      · exact hlonger hshort
      · rw [List.prefix_append_right_inj] at h hx
        cases y with
        | nil => exact hlonger (by simp)
        | cons d y =>
          rw [hmark, List.cons_append] at hx
          exact hc ((List.cons_prefix_cons.1 h).1.symm.trans (List.cons_prefix_cons.1 hx).1)
    · intro h
      exact h.trans (List.prefix_append _ _)

/-! ### What a compiled script emits -/

namespace Script

open Segment

def endLine (code : List Char) : List Char :=
  match code.getLast? with
  | none => code
  | some c => if c = '\n' then code else code ++ ['\n']

def endLines (lines : List String) : List Char := lines.flatMap fun l => l.toList ++ ['\n']

/-- Compiling a script emits a text behind `before`: in the place of a declaration, or on a line at
the end. -/
inductive Emits (format : ModuleFormat) (ss : List Segment) (footer : List String) :
    List Char → List Char → Prop
  | inPlace {left back : List Segment} {old new : List Char}
      (h : ss = left ++ .replaced old new :: back) :
      Emits format ss footer (front format ++ outputs left) new
  | atEnd {lines more : List String} {line : String} (h : footer = lines ++ line :: more) :
      Emits format ss footer (endLine (front format ++ outputs ss) ++ endLines lines) line.toList

theorem append_footerText {body : List Char} {lines : List String} (h : lines ≠ []) :
    body ++ footerText body lines = endLine body ++ endLines lines := by
  unfold footerText endLine endLines
  rw [if_neg (by simpa using h), List.flatMap_def]
  cases body.getLast? with
  | none => simp
  | some c =>
    by_cases hc : c = '\n'
    · simp [hc]
    · simp [hc]

/-- What is emitted stands in the compiled code. -/
theorem Emits.code {format : ModuleFormat} {ss : List Segment} {footer : List String}
    {before text : List Char} (h : Emits format ss footer before text) (file source : String) :
    before ++ text <+: (assemble format file source ss footer).code.toList := by
  rw [code_assemble]
  cases h with
  | @inPlace left back old _ hss =>
    refine ⟨outputs back ++ footerText (front format ++ outputs ss) footer, ?_⟩
    rw [hss]
    simp [outputs, Segment.output]
  | @atEnd lines more line hfooter =>
    rw [append_footerText (by simp [hfooter]), hfooter]
    exact ⟨'\n' :: endLines more, by simp [endLines]⟩

end Script

/-! ### Modules -/

open Script

namespace SingleFileTransformer

variable {κ : Type} {t : SingleFileTransformer κ} {files : Files} {source file : String}
  {settings : Settings} {pace : Pace} {s s' s₁ : Session κ} {output : Output} {cx : Context κ}
  {block : ScriptBlock}

/-- **What a plain script emits is in the module** just when it ends before each mark of a map comment
in the compiled code. -/
theorem emitted_kept_iff
    (hrun : (t.process files source file settings pace).run s = (.ok output, s'))
    (hcx : (t.context files file settings pace).run s = (.ok cx, s₁))
    (hscript : (Component.parse source file).script = some block)
    (hsetup : (Component.parse source file).setupScript = none)
    (hlang : Stage.BuiltIn cx block.lang) :
    ∃ content made ss footer spot,
      (match block.src with
        | none => content = block.content
        | some src => ∃ s₂ s₃ : Session κ, (Stage.load files src file).run s₂ = (.ok content, s₃)) ∧
      Script.compile (Stage.moduleFormat settings) file content = .ok made ∧
      Divides (Stage.moduleFormat settings) content ss footer ∧
      ∀ before text, Emits (Stage.moduleFormat settings) ss footer before text →
        before ++ text <+: made.code.toList ∧
        (annotate spot (before ++ text) <+: output.code.toList ↔
          ∀ a, a ++ mapComment <+: made.code.toList → (before ++ text).length ≤ a.length) := by
  obtain ⟨a, body, content, made, rfl, hascript, hmade, hbodyCode, hcontent, -⟩ :=
    process_plain_cases hrun hcx hscript hsetup hlang
  obtain ⟨ss, footer, hdivides, rfl⟩ := compile_eq_ok_iff.1 hmade
  obtain ⟨spot, ⟨tail, -, hall⟩, -⟩ := Assembly.exists_spot hascript
  obtain ⟨c, more, hc, halias⟩ := Assembly.exists_code_pushLine_alias hascript
  refine ⟨content, _, ss, footer, spot, ?_, hmade, hdivides, fun before text hemits => ?_⟩
  · cases hsrc : block.src with
    | none =>
      rw [hsrc] at hcontent
      exact hcontent.1
    | some src =>
      rw [hsrc] at hcontent
      exact hcontent
  · have hcode := hemits.code file content
    refine ⟨hcode, ?_⟩
    rw [Assembly.code_assemble, hall, halias, hbodyCode, List.append_assoc, List.cons_append,
      annotate_prefix_iff, prefix_withoutMapComment_append_iff hc hcode,
      prefix_withoutMapComment_iff hcode]

end SingleFileTransformer

/-! ### A mark in a literal -/

/-- A default export with the mark of a map comment in a literal. -/
def markedScript : String := "export default \x7b mark: '//# sourceMappingURL' \x7d"

def markedSource : String := "<script>" ++ markedScript ++ "</script>"

def markedFile : String := "/app/Mark.vue"

/-- The settings of a project whose modules are written in the newer syntax. -/
def markedSettings : Settings := { esm := true }

/-- A transformer with the compilers of the library only. -/
def plainTransformer : SingleFileTransformer Unit := {}

def markedContext : Context Unit where
  file := markedFile
  settings := markedSettings
  options := {}
  registry := {}
  nameMap := ⟨[]⟩
  files := {}
  compilers := {}
  pace := .blocking

/-- The transformation succeeds, but its code ends at the mark. -/
theorem exists_run_markedSource : ∃ output s',
    (plainTransformer.process {} markedSource markedFile markedSettings .blocking).run ⟨[], ()⟩ =
      (.ok output, s') ∧
    ¬ (defaultFooter .ecmaScript componentName).toList <:+: output.code.toList := by
  have hrun : ((plainTransformer.process {} markedSource markedFile markedSettings
      .blocking).run ⟨[], ()⟩).1.toOption.any (fun output =>
        (splitFirst? (defaultFooter .ecmaScript componentName).toList
          output.code.toList).isNone) = true := by
    decide +kernel
  obtain ⟨output, s', hrun, hlost⟩ := Routine.exists_run_of_any hrun
  exact ⟨output, s', hrun, splitFirst?_eq_none_iff.1 (Option.isNone_iff_eq_none.1 hlost)⟩

theorem emitted_kept_iff_markedSource :
    ∃ output, ((plainTransformer.process {} markedSource markedFile markedSettings .blocking).run
        ⟨[], ()⟩).1 = .ok output ∧
      ∃ content made ss footer spot, content = markedScript ∧
        Script.compile .ecmaScript markedFile content = .ok made ∧
        Divides .ecmaScript content ss footer ∧
        ∀ before text, Emits .ecmaScript ss footer before text →
          before ++ text <+: made.code.toList ∧
          (annotate spot (before ++ text) <+: output.code.toList ↔
            ∀ a, a ++ mapComment <+: made.code.toList →
              (before ++ text).length ≤ a.length) := by
  have hparse : ((Component.parse markedSource markedFile).setupScript.isNone &&
      (Component.parse markedSource markedFile).script.any fun block =>
        block.src = none && block.lang = none && block.content = markedScript) = true := by
    decide +kernel
  obtain ⟨output, s', hrun, -⟩ := exists_run_markedSource
  obtain ⟨hsetup, hparse⟩ := Bool.and_eq_true_iff.1 hparse
  obtain ⟨block, hscript, hblock⟩ := (Option.any_eq_true _ _).1 hparse
  simp only [Bool.and_eq_true, decide_eq_true_eq] at hblock
  obtain ⟨⟨hinline, hlang⟩, hblockContent⟩ := hblock
  have hcx : (plainTransformer.context {} markedFile markedSettings .blocking).run ⟨[], ()⟩ =
      (.ok markedContext, ⟨[], ()⟩) := rfl
  have hbuiltIn : Stage.BuiltIn markedContext block.lang := by
    rw [hlang]
    exact ⟨rfl, rfl⟩
  obtain ⟨content, made, ss, footer, spot, hcontent, hmade, hdivides, hall⟩ :=
    SingleFileTransformer.emitted_kept_iff hrun hcx hscript (Option.isNone_iff_eq_none.1 hsetup)
      hbuiltIn
  rw [hinline] at hcontent
  exact ⟨output, congrArg Prod.fst hrun, content, made, ss, footer, spot,
    hcontent.trans hblockContent, hmade, hdivides, hall⟩

/-- The export below a mark in a literal is lost. -/
theorem not_infix_markedSource :
    ∃ made output, Script.compile .ecmaScript markedFile markedScript = .ok made ∧
      ((plainTransformer.process {} markedSource markedFile markedSettings .blocking).run
        ⟨[], ()⟩).1 = .ok output ∧
      (defaultFooter .ecmaScript componentName).toList <:+: made.code.toList ∧
      ¬ (defaultFooter .ecmaScript componentName).toList <:+: output.code.toList := by
  have hmade : (compiledText? .ecmaScript markedScript).any (fun code =>
      (splitFirst? (defaultFooter .ecmaScript componentName).toList code).isSome) = true := by
    decide +kernel
  obtain ⟨made, hmade, hstands⟩ := exists_compile_of_any hmade markedFile
  obtain ⟨output, s', hrun, hlost⟩ := exists_run_markedSource
  exact ⟨made, output, hmade, congrArg Prod.fst hrun, isSome_splitFirst?_iff.1 hstands, hlost⟩

end SingleFile
